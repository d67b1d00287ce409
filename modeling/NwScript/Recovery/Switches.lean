import NwScript.Bytecode.StackEffect
import NwScript.Recovery.Scopes
import NwScript.Recovery.Values

/-!
# Switches

A switch compares its subject with one literal after another and jumps to the case that is equal.
The dispatch ends with a jump to the default case or behind the switch, and the switch itself ends at
the instruction that pops the subject.  The cases divide everything from the first case to the end.
-/

namespace NwScript
namespace RecoveryInput

/-- An instruction returns, at once or behind one pop. -/
def returnsAt (input : RecoveryInput) (command : Nat) : Bool :=
  match input.program.opcode command with
  | .ret => true
  | .moveStack =>
      (input.program.next? command).any fun next => input.program.opcode next = .ret
  | _ => false

/-- A jump behind a saved state skips the code of a deferred argument. -/
def skipsClosure (input : RecoveryInput) (command : Nat) : Bool :=
  input.program.follows command Opcode.isStateSave

/-- A pop is followed by a return, at once or behind a jump. -/
def leadsToReturn (input : RecoveryInput) (pop : Nat) : Except Fault Bool :=
  match input.program.next? pop with
  | none => return false
  | some next =>
      match input.program.opcode next with
      | .ret => return true
      | .jump => return (← input.table.destination next).any input.returnsAt
      | _ => return false

/-- Change of the stack height by an instruction; none if it is not known. -/
def heightChange (input : RecoveryInput) (command : Nat) : Int :=
  let instruction := input.program.instruction command
  let calleeSlots :=
    if instruction.opcode = .call then
      ((input.calls.target? command).bind fun sub => input.protos[sub]?).map (·.slotCount)
    else
      none
  ((instruction.stackEffect? input.catalog calleeSlots).map (·.net)).getD 0

/-- What a scan for the end of a switch knows. -/
structure SwitchScan where
  /-- Next instruction. -/
  cursor : Option Nat
  /-- Stack height above the subject. -/
  height : Int := 0
  /-- The last pop of the subject that leads into a return. -/
  candidate : Option Nat := none
  deriving DecidableEq, Repr, Inhabited

/-- Outcome of one step of the scan. -/
inductive SwitchStep where
  /-- The scan has met its last instruction. -/
  | found (pop : Option Nat)
  /-- The scan goes on. -/
  | more (scan : SwitchScan)
  deriving DecidableEq, Repr, Inhabited

/-- The scan behind an instruction that is executed. -/
def SwitchScan.advance (input : RecoveryInput) (scan : SwitchScan) (command : Nat) : SwitchScan :=
  { scan with
    cursor := input.program.next? command
    height := scan.height + input.heightChange command }

/-- Look at one instruction.  The height is known again wherever a case begins.  A pop of the subject
ends the switch, but one that leads into a return may be a return from inside a case. -/
def scanStep (input : RecoveryInput) (starts : List Nat) (scan : SwitchScan) :
    Except Fault SwitchStep :=
  match scan.cursor with
  | none => return .found scan.candidate
  | some command => do
      if ← input.table.isDead command then
        return .more { scan with cursor := input.program.next? command }
      else
        let height := if input.program.position command ∈ starts then 0 else scan.height
        let here := { scan with height }
        match input.program.opcode command with
        | .moveStack =>
            if height ≠ 0 then
              return .more (here.advance input command)
            else if ← input.leadsToReturn command then
              return .more ({ here with candidate := some command }.advance input command)
            else
              return .found (some command)
        | .jump =>
            if input.skipsClosure command then
              return .more { here with cursor := ← input.table.destination command }
            else
              return .more (here.advance input command)
        | _ => return .more (here.advance input command)

/-- Scan at most `count` instructions; a scan that is to go on then never ends. -/
def scanFrom (input : RecoveryInput) (starts : List Nat) :
    (count : Nat) → SwitchScan → Except Fault (Option Nat)
  | 0, _ => throw .endlessScan
  | count + 1, scan => do
      match ← input.scanStep starts scan with
      | .found pop => return pop
      | .more scan => scanFrom input starts count scan

/-- How many slots the instructions of the program move, all together. -/
def heightChanges (input : RecoveryInput) : Nat :=
  (input.program.commandNumbers.map fun command => (input.heightChange command).natAbs).foldr (· + ·) 0

/-- How many instructions a scan needs at most if it ends.  The order in which a scan meets instructions
does not depend on the height, so a scan that meets one again runs in a circle, and each turn changes the
height there by the same amount until it is zero or never will be. -/
def scanBound (input : RecoveryInput) : Nat :=
  (input.program.commandCount + 1) * (input.program.commandCount * input.heightChanges + 2)

/-- The pop of the subject behind a dispatch: the first one that does not return, or else the last
one that does. -/
def switchEnd (input : RecoveryInput) (jump : Nat) (starts : List Nat) (default : Nat) :
    Except Fault (Option Nat) :=
  input.scanFrom (starts ++ [default]) input.scanBound { cursor := input.program.next? jump }

end RecoveryInput

/-- A case of a switch and where its statements lie. -/
structure CaseRange (α : Type) where
  /-- The label; the default case has none. -/
  label : Option α
  /-- Where the case begins. -/
  start : Nat
  /-- Where the case ends. -/
  limit : Nat
  deriving DecidableEq, Repr, Inhabited

namespace CaseRange

/-- Cases in the order of their positions, the default case behind those that begin with it. -/
def ordered {α : Type} (cases : List (α × Nat)) (default limit : Nat) :
    List (Option α × Nat) :=
  let labelled := cases.map fun entry => (some entry.1, entry.2)
  let all := if default < limit then labelled ++ [(none, default)] else labelled
  all.mergeSort fun left right => left.2 ≤ right.2

/-- Each case ends where the next one begins, the last one at the end of the switch. -/
def divide {α : Type} (limit : Nat) : List (Option α × Nat) → List (CaseRange α)
  | [] => []
  | [(label, start)] => [⟨label, start, limit⟩]
  | (label, start) :: (next, following) :: rest =>
      ⟨label, start, following⟩ :: divide limit ((next, following) :: rest)

/-- Dividing keeps labels and starts in their order. -/
@[simp]
theorem map_divide {α : Type} (limit : Nat) (cases : List (Option α × Nat)) :
    (divide limit cases).map (fun range => (range.label, range.start)) = cases := by
  fun_induction divide limit cases with
  | case1 => rfl
  | case2 label start => rfl
  | case3 label start next following rest induction => simpa using induction

/-- The cases of a switch that ends at a position. -/
def ofDispatch {α : Type} (cases : List (α × Nat)) (default limit : Nat) : List (CaseRange α) :=
  divide limit (ordered cases default limit)

end CaseRange

namespace Recover

/-- Add a literal for the label of each case. -/
def addLabels : List (Constant × Nat) → Recover (List (NodeId × Nat))
  | [] => return []
  | (label, start) :: cases => do
      let literal ← addNode (.literal label)
      let labels ← addLabels cases
      return (literal, start) :: labels

/-- Add the cases of a switch. -/
def addCases (switch : NodeId) : List (CaseRange NodeId) → Recover Unit
  | [] => pure ()
  | range :: ranges => do
      let case ← addNode (.case range.label { start := range.start, limit := range.limit })
      onTree fun tree => tree.append switch case
      addCases switch ranges

/-- Begin the switch whose dispatch ends with a jump to `default`. -/
def openSwitch (input : RecoveryInput) (command : Nat) (dispatch : Dispatch) (default : Nat) :
    Recover Unit := do
  let starts := dispatch.cases.map (·.2)
  match ← (input.switchEnd command starts default : Except Fault _) with
  | none => unclassified .switchWithoutEnd
  | some pop =>
      let limit := input.program.position pop
      let subject ← peekExpression dispatch.subject
      consume dispatch.subject
      let switch ← addNode
        (.switch subject { start := input.program.positionAfter command, limit })
      addCases switch (CaseRange.ofDispatch (← addLabels dispatch.cases) default limit)
      emit switch
      enter switch

/-- Add a dispatch to the switch that is about to begin. -/
def addDispatch (comparison : Comparison) (target : Nat) : Recover Unit := do
  match (← get).dispatch with
  | none =>
      let dispatch : Dispatch :=
        { subject := comparison.subject, cases := [(comparison.label, target)] }
      modify fun recovery => { recovery with dispatch := some dispatch }
  | some dispatch =>
      if dispatch.subject = comparison.subject then
        let longer := { dispatch with cases := dispatch.cases ++ [(comparison.label, target)] }
        modify fun recovery => { recovery with dispatch := some longer }
      else
        unclassified .dispatchChangesSubject

/-- A jump to a case if the last comparison held; its result must lie right above its subject. -/
def dispatchCase (target : Nat) : Recover Unit := do
  let recovery ← get
  match recovery.comparison with
  | none => unclassified .dispatchWithoutLiteral
  | some comparison =>
      if recovery.stack.peek? 1 = some (.var comparison.result) ∧
          recovery.stack.peek? 2 = some comparison.subject then
        modify fun recovery => { recovery with comparison := none }
        onStack (·.drop)
        consume (.var comparison.result)
        addDispatch comparison target
      else
        unclassified .dispatchWithoutLiteral

end Recover
end NwScript
