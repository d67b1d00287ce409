import NwScript.Calls.CallSites

/-!
# Guessed prototypes

A subroutine for which no path completes gets a prototype of unknown parameter slots.  Their number is
the larger of what its call sites push and what it pops right before it returns.
-/

namespace NwScript

/-- Two guesses at the number of parameter slots. -/
structure SlotGuess where
  /-- By the call sites. -/
  callSites : Nat
  /-- By the last pop. -/
  epilogue : Nat
  deriving DecidableEq, Repr, Inhabited

namespace SlotGuess

/-- The number of parameter slots to assume. -/
def slots (guess : SlotGuess) : Nat :=
  max guess.callSites guess.epilogue

/-- Slots popped right before a live return. -/
def poppedBefore (program : Program) (table : FlowTable) (command : Nat) : Except Fault Nat := do
  if program.opcode command ≠ .ret then
    return 0
  else if ← table.isDead command then
    return 0
  else
    match program.previous? command with
    | some previous =>
        if program.opcode previous = .moveStack then
          return ((program.instruction previous).offset?.map (·.natAbs / 4)).getD 0
        else
          return 0
    | none => return 0

/-- Guess at the parameters of a subroutine. -/
def ofSub (evidence : CallSites.Evidence) (protos : Array Prototype) (sub : Nat) :
    Except Fault SlotGuess := do
  let callSites ← CallSites.estimateFor evidence protos sub
  let epilogue ← (evidence.program.body sub).foldlM
    (fun most command => return max most (← poppedBefore evidence.program evidence.table command))
    0
  return ⟨callSites.getD 0, epilogue⟩

end SlotGuess

namespace Prototype

/-- Install a guess: unknown parameter slots and no result. -/
def installGuess (proto : Prototype) (guess : SlotGuess) : Prototype :=
  let guessed := proto.install (List.replicate guess.slots .invalid) [] .void none
  { guessed with flags := { guessed.flags with fallback := true } }

end Prototype
end NwScript
