import NwScript.Bytecode.StackEffect
import NwScript.Calls.CallGraph
import NwScript.Prototype

/-!
# Estimates from call sites

How many parameter slots a subroutine without prototype takes is estimated from its callers: the
slots pushed since the last statement boundary, above a slot that was reserved for the result.  The
estimate of a subroutine is the largest over its live call sites.
-/

namespace NwScript

/-- Largest number of argument slots seen so far, by callee. -/
abbrev SlotEstimates := List (Nat × Nat)

namespace SlotEstimates

/-- Raise the estimate of a callee to at least some number. -/
def raise (estimates : SlotEstimates) (callee slots : Nat) : SlotEstimates :=
  match estimates with
  | [] => [(callee, slots)]
  | entry :: rest =>
      if entry.1 = callee then (callee, max entry.2 slots) :: rest
      else entry :: raise rest callee slots

end SlotEstimates

namespace CallSites

/-- The stack of a caller at one point of a straight walk. -/
structure Cursor where
  /-- Stack height above the entry. -/
  height : Int := 0
  /-- Height at the last statement boundary. -/
  mark : Int := 0
  /-- Heights at which slots were reserved since then, the last one first. -/
  reserved : List Int := []
  deriving DecidableEq, Repr, Inhabited

/-- What an estimate is made from. -/
structure Evidence where
  /-- The program. -/
  program : Program
  /-- Its liveness. -/
  table : FlowTable
  /-- Its calls. -/
  calls : CallGraph
  /-- Engine actions. -/
  catalog : ActionCatalog

/-- An instruction that ends a statement: a pop, a jump, a return or an action without result. -/
def isBoundary (catalog : ActionCatalog) (instruction : Instruction) : Bool :=
  match instruction.opcode with
  | .moveStack | .jump | .jumpZero | .jumpNonzero | .ret => true
  | .action =>
      match instruction.actionOperand?.bind fun operand => catalog.returnType? operand.1 with
      | some type => type.slots = 0
      | none => true
  | _ => false

/-- Walk over a call of `callee`. -/
def stepCall (protos : Array Prototype) (callee : Nat) (cursor : Cursor)
    (estimates : SlotEstimates) : Cursor × SlotEstimates :=
  let slot := cursor.reserved.head?.filter fun height => cursor.mark ≤ height
  let base := match slot with
    | some height => height + 1
    | none => cursor.mark
  let reserved := if slot.isSome then cursor.reserved.tail else cursor.reserved
  match protos[callee]?.filter (·.isPrototyped) with
  | some proto => ({ cursor with height := cursor.height - proto.slotCount, reserved }, estimates)
  | none =>
      ({ cursor with height := base, reserved },
        estimates.raise callee (cursor.height - base).toNat)

/-- Walk over an instruction that is no call. -/
def stepOther (catalog : ActionCatalog) (instruction : Instruction) (cursor : Cursor) : Cursor :=
  let reserved :=
    if instruction.opcode = .reserve then cursor.height :: cursor.reserved else cursor.reserved
  let height := match instruction.stackEffect? catalog none with
    | some effect => cursor.height + effect.net
    | none => cursor.mark
  if isBoundary catalog instruction || height < cursor.mark then
    { height, mark := height, reserved := [] }
  else
    { cursor with height, reserved }

/-- Walk over one instruction of a caller. -/
def step (evidence : Evidence) (protos : Array Prototype) (state : Cursor × SlotEstimates)
    (command : Nat) : Except Fault (Cursor × SlotEstimates) := do
  if ← evidence.table.isDead command then
    return state
  else
    let instruction := evidence.program.instruction command
    if instruction.opcode = .call then
      match evidence.calls.target? command with
      | none => return state
      | some callee => return stepCall protos callee state.1 state.2
    else
      return (stepOther evidence.catalog instruction state.1, state.2)

/-- Add what one caller shows to the estimates. -/
def walk (evidence : Evidence) (protos : Array Prototype) (estimates : SlotEstimates)
    (caller : Nat) : Except Fault SlotEstimates :=
  return (← (evidence.program.body caller).foldlM (step evidence protos) ({}, estimates)).2

/-- Estimates for all called subroutines without prototype. -/
def estimate (evidence : Evidence) (protos : Array Prototype) : Except Fault SlotEstimates :=
  evidence.program.subroutines.foldlM (walk evidence protos) []

/-- The estimate for one subroutine, from its callers alone. -/
def estimateFor (evidence : Evidence) (protos : Array Prototype) (callee : Nat) :
    Except Fault (Option Nat) :=
  return List.lookup callee (← (evidence.calls.callers callee).foldlM (walk evidence protos) [])

end CallSites
end NwScript
