import NwScript.Recovery.Values

/-!
# Actions and calls

Arguments are taken off the stack, the first one first.  A call whose result has a reserved slot
waits in the declaration of the slot: a use moves the call into the using expression, and a pop
without use turns the declaration into a call statement.
-/

namespace NwScript
namespace Recover

/-- Take the argument for a parameter of an action; a deferred argument is no value. -/
def actionArgument (type : Ty) : Recover NodeId := do
  if type = .action then
    match (← get).closures with
    | closure :: closures =>
        modify fun recovery => { recovery with closures }
        return closure
    | [] => unknownOperand
  else
    takeValue (max type.slots 1)

/-- Name of an action. -/
def actionName (catalog : ActionCatalog) (id : Nat) : String :=
  ((catalog.find? id).map (·.name)).getD ("__action_" ++ toString id)

/-- Parameters of a call of an action; an unknown action is passed single slots. -/
def actionParams (catalog : ActionCatalog) (id argumentCount : Nat) : List Ty :=
  (catalog.argumentTypes? id argumentCount).getD (List.replicate argumentCount .int)

/-- Call an engine action: without result it is a statement. -/
def action (catalog : ActionCatalog) (instruction : Instruction) : Recover Unit := do
  match instruction.actionOperand? with
  | none => throw (.malformed (.noOperands instruction.opcode (← get).position))
  | some (id, argumentCount) =>
      let arguments ← (actionParams catalog id argumentCount).mapM actionArgument
      let call ← addNode (.action id (actionName catalog id) arguments)
      let result := (catalog.returnType? id).getD .void
      if result.slots = 0 then
        emitNode (.statement call)
      else
        let _ ← pushValue result call result.slots

/-- Take the argument for the parameter with an index, if the stack is high enough. -/
def callArgument (index width : Nat) : Recover NodeId := do
  if (← get).stack.height < width then
    addNode (.placeholder ("__unresolved_param" ++ toString index))
  else
    takeValue width

/-- Take the arguments for consecutive parameters of given widths. -/
def callArguments : (index : Nat) → List Nat → Recover (List NodeId)
  | _, [] => return []
  | index, width :: widths => do
      let argument ← callArgument index width
      let arguments ← callArguments (index + 1) widths
      return argument :: arguments

/-- A declaration that has no value yet. -/
def isOpenDeclaration : Node → Bool
  | .declaration _ none _ => true
  | _ => false

/-- A local that was reserved in the innermost open node and has no value yet. -/
def isFresh (recovery : Recovery) (var : VarId) : Bool :=
  match recovery.tree.vars.get? var with
  | some { kind := .localVar, parent := none, declaration := some declaration, .. } =>
      recovery.tree.parent? declaration = some recovery.current &&
        isOpenDeclaration (recovery.tree.node declaration)
  | _ => false

/-- The different fresh locals that some entries begin with. -/
def freshLocals (recovery : Recovery) (found : List VarId) : List StackEntry → List VarId
  | .var var :: rest =>
      if isFresh recovery var ∧ var ∉ found then freshLocals recovery (found ++ [var]) rest
      else found
  | _ => found

/-- The slots that were reserved for a result of some width. -/
def reservedSlots? (recovery : Recovery) (width : Nat) : Option (List VarId) := do
  let (entries, _) ← recovery.stack.popMany? width
  let slots := freshLocals recovery [] entries
  if slots.length = width then some slots else none

/-- Declare an aggregate in place of its members. -/
def declareTogether (members : List VarId) (aggregate : VarId) : Recover Unit := do
  let declaration ← addNode (.declaration aggregate none false)
  onTree fun tree =>
    (tree.replaceAll declaration (members.filterMap tree.vars.declaration?)).declareWhole aggregate
      declaration

/-- The variable that receives a result in some reserved slots. -/
def resultTarget : List VarId → Recover (Option VarId)
  | [slot] => return some slot
  | slots => do
      match ← group slots with
      | some aggregate =>
          declareTogether slots aggregate
          return some aggregate
      | none => return none

/-- Let a call wait in the declaration of the slots reserved for its result; without such slots it is
a statement. -/
def attachResult (call width : Nat) : Recover Unit := do
  match reservedSlots? (← get) width with
  | none => emitNode (.statement call)
  | some slots =>
      match ← resultTarget slots with
      | none => emitNode (.statement call)
      | some target =>
          match (← get).tree.vars.declaration? target with
          | none => pure ()
          | some declaration =>
              onTree fun tree => (tree.modify declaration fun
                | .declaration var _ _ => .declaration var (some call) true
                | node => node).setParent call (some declaration)

/-- Call a subroutine. -/
def call (input : RecoveryInput) (command : Nat) : Recover Unit := do
  match input.calls.target? command with
  | none => unclassified .callWithoutTarget
  | some callee =>
      let proto := input.protos[callee]?
      let widths := proto.elim [] fun proto => proto.paramRanges.map (·.2)
      let arguments ← callArguments 0 widths
      let call ← addNode (.call callee (input.name callee) arguments)
      match proto.elim 0 (·.returnSlots) with
      | 0 => emitNode (.statement call)
      | width => attachResult call width

end Recover
end NwScript
