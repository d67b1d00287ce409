import NwScript.Flow.Table

/-!
# Jump destinations

The second pass finds the instruction that each jump leads to.  A target is sought by bisection,
first among the entries of the subroutines and then among the instructions of one of them; each
bisection may halve its interval once more than the length of the list has binary digits.
-/

namespace NwScript
namespace Jumps

/-- Halvings allowed on a list of some length. -/
def halvings (length : Nat) : Nat :=
  if length = 0 then 1 else Nat.log2 length + 2

/-- The last subroutine between `low` and `high` whose entry does not lie behind the target, given
that the one at `low` may be taken. -/
def findSub (program : Program) (table : FlowTable) (target : Int) :
    (budget low high : Nat) → Except Fault Nat
  | 0, low, _ => .ok low
  | budget + 1, low, high =>
      if low + 1 < high then do
        let middle := (low + high) / 2
        let position ← table.position (program.entry middle)
        if position ≤ target then
          findSub program table target budget middle high
        else
          findSub program table target budget low middle
      else
        .ok low

/-- The instruction at the target among those of a list between `low` and `high`. -/
def findCommand (table : FlowTable) (commands : Array Nat) (target : Int) :
    (budget low high : Nat) → Except Fault (Option Nat)
  | 0, _, _ => .ok none
  | budget + 1, low, high =>
      if low < high then do
        let middle := (low + high) / 2
        let command := commands.getD middle 0
        let position ← table.position command
        if position = target then
          return some command
        else if position < target then
          findCommand table commands target budget (middle + 1) high
        else
          findCommand table commands target budget low middle
      else
        .ok none

/-- The instruction at a byte position. -/
def find (program : Program) (table : FlowTable) (target : Int) : Except Fault (Option Nat) :=
  if program.subroutineCount = 0 ∨ target < 0 then
    .ok none
  else do
    let count := program.subroutineCount
    let sub ← findSub program table target (halvings count) 0 count
    let commands := (program.body sub).toArray
    findCommand table commands target (halvings commands.size) 0 commands.size

/-- Record the destination of one instruction if it jumps. -/
def resolveOne (program : Program) (command : Nat) : FlowPass Unit := do
  match (program.instruction command).jumpOffset? with
  | none => pure ()
  | some offset =>
      let position ← FlowPass.ask (·.position command)
      let target := (position : Int) + offset
      match ← FlowPass.ask (find program · target) with
      | none => throw (.jumpTarget position target)
      | some destination =>
          FlowPass.apply (·.setDestination command destination)
          FlowPass.apply (·.addOrigin destination command)

/-- Record the destinations of all jumps. -/
def resolve (program : Program) : FlowPass Unit :=
  program.commandNumbers.forM (resolveOne program)

end Jumps
end NwScript
