import NwScript.Recovery.State

/-!
# The frame of a subroutine

When a subroutine begins, its caller has left slots for the result and, above them, the arguments
with the first one on top.  The frame names these slots; a value of several slots is an aggregate of
one variable a slot.
-/

namespace NwScript

/-- The slots that a caller has left. -/
structure Frame where
  /-- The variables so far. -/
  vars : VarTable
  /-- The declared parameters in order. -/
  params : List VarId
  /-- The slots, bottom first. -/
  slots : List VarId
  deriving DecidableEq, Repr, Inhabited

namespace Frame

/-- Add a variable of a class for each type. -/
def addVars (kind : VarKind) (vars : VarTable) : List Ty → VarTable × List VarId
  | [] => (vars, [])
  | type :: types =>
      let (vars, id) := vars.add { kind, type }
      let (vars, ids) := addVars kind vars types
      (vars, id :: ids)

@[simp]
theorem length_addVars (kind : VarKind) (vars : VarTable) (types : List Ty) :
    (addVars kind vars types).2.length = types.length := by
  induction types generalizing vars with
  | nil => rfl
  | cons type types induction => simp [addVars, induction]

/-- The slots of a result; several of them belong to one aggregate. -/
def ofResult (type : Ty) (vars : VarTable) : VarTable × List VarId :=
  let (vars, members) := addVars .ret vars type.flatten
  if 1 < members.length then ((vars.aggregate members).1, members) else (vars, members)

/-- A parameter and its slots; an aggregate whose members fill its slots has one variable a slot. -/
def ofParam (type : Ty) (width : Nat) (vars : VarTable) : VarTable × VarId × List VarId :=
  let flat := type.flatten
  if 1 < width ∧ flat.length = width then
    let (vars, members) := addVars .param vars flat
    let (vars, id) := vars.aggregate members
    (vars, id, members)
  else
    let (vars, id) := vars.add { kind := .param, type }
    (vars, id, List.replicate width id)

/-- A parameter has as many slots as its width says. -/
@[simp]
theorem length_ofParam (type : Ty) (width : Nat) (vars : VarTable) :
    (ofParam type width vars).2.2.length = width := by
  unfold ofParam
  dsimp only
  split
  · rename_i whole
    simp [whole.2]
  · simp

/-- Parameters with given types and widths, and the slots of each. -/
def ofParams (vars : VarTable) : List (Ty × Nat) → VarTable × List (VarId × List VarId)
  | [] => (vars, [])
  | (type, width) :: rest =>
      let (vars, param) := ofParam type width vars
      let (vars, params) := ofParams vars rest
      (vars, param :: params)

/-- The frame of a subroutine with a prototype. -/
def ofProto (proto : Prototype) (vars : VarTable) : Frame :=
  let (vars, result) := ofResult proto.returnType vars
  let widths := proto.paramRanges.map (·.2)
  let (vars, params) := ofParams vars (proto.params.zip widths)
  { vars
    params := params.map (·.1)
    slots := result ++ params.reverse.flatMap (·.2) }

end Frame

namespace RecoveryInput

/-- A subroutine that sets up the globals is printed as their declarations. -/
def kind (input : RecoveryInput) (sub : Nat) : ScriptKind :=
  if some sub = input.layout.globals then .globals else .function

/-- Positions where a subroutine begins and ends. -/
def span (input : RecoveryInput) (sub : Nat) : Nat × Nat :=
  let body := input.program.body sub
  let first := (body.head?.map input.program.position).getD 0
  (first, (body.getLast?.map input.program.positionAfter).getD first)

/-- The tree of a subroutine before its first instruction. -/
def emptyTree (input : RecoveryInput) (sub : Nat) : ScriptTree :=
  let (first, limit) := input.span sub
  let returnType := (input.protos[sub]?.map (·.returnType)).getD .void
  .start sub (input.kind sub) { name := input.name sub, returnType } first limit
    input.settings.indent

/-- The recovery of a subroutine before its first instruction.  Functions see the globals and the
slots that their caller has left. -/
def start (input : RecoveryInput) (sub : Nat) : Recovery :=
  let tree := input.emptyTree sub
  let position := (input.span sub).1
  match input.kind sub with
  | .globals => { tree, position }
  | .function =>
      let (vars, globals) := Frame.addVars .global tree.vars input.globals
      match input.protos[sub]? with
      | none => { tree := { tree with vars }, globals, position }
      | some proto =>
          let frame := Frame.ofProto proto vars
          { tree := { tree with
              vars := frame.vars
              signature := { tree.signature with params := frame.params } }
            stack := SlotStack.empty.pushAll (frame.slots.map .var)
            globals
            position }

end RecoveryInput
end NwScript
