import NwScript.Bytecode.StackEffect
import NwScript.Recovery.Copies

/-!
# Operators

Operators take their operands off the stack, the right one first, and push the expression that they
form.  A change of a variable by one becomes a value before or behind a copy of the variable, and a
statement otherwise.
-/

namespace NwScript
namespace Recover

/-- The intermediate value on top, if the last instruction copied a variable there. -/
def copyOf? (recovery : Recovery) (var : VarId) : StepTrack → Option VarId
  | .copied temporary source =>
      if source = var ∧ recovery.stack.peek? 1 = some (.var temporary) then some temporary
      else none
  | .stepped _ _ => none

/-- Change a named variable by one. -/
def stepVariable (op : StepOp) (target : Option StackEntry) (track : Option StepTrack) :
    Recover Unit := do
  let recovery ← get
  match (target.filter recovery.isNamed).bind Recovery.entryVar? with
  | none => throw (.unsupported (.steppedTemporary recovery.position))
  | some var =>
      commit var
      let place ← addNode (.reference var)
      let expression ← addNode (.step op false place)
      match track.bind (copyOf? recovery var) with
      | some temporary =>
          onVar temporary fun entry => { entry with value := some expression }
      | none =>
          let statement ← addNode (.statement expression)
          emit statement
          modify fun recovery => { recovery with track := some (.stepped statement var) }

/-- The member of a type that begins at a slot and has a width: its index and its type. -/
def memberAt? (slot width : Nat) : (index : Nat) → List Ty → Option (Nat × Ty)
  | _, [] => none
  | index, member :: members =>
      if slot = 0 ∧ max member.slots 1 = width then
        some (index, member)
      else if member.slots ≤ slot then
        memberAt? (slot - member.slots) width (index + 1) members
      else
        none

/-- Replace an aggregate by one of its members. -/
def destruct (instruction : Instruction) : Recover Unit := do
  let recovery ← get
  match instruction.operand with
  | .destruct size offset keep =>
      let type := (recovery.stack.peek? 1).elim .invalid recovery.entryType
      match type.members?.bind (memberAt? (offset / 4) (keep / 4) 0) with
      | none => throw (.unsupported (.extraction recovery.position type))
      | some (index, member) =>
          let base ← takeValue (size / 4)
          let access ← addNode (.member base (VarTable.memberName type index))
          let _ ← pushValue member access (keep / 4)
  | _ => throw (.malformed (.noOperands instruction.opcode recovery.position))

/-- The expression that a binary instruction forms. -/
def binaryNode? (opcode : Opcode) (left right : NodeId) : Option Node :=
  match LogicalOp.ofOpcode? opcode with
  | some op => some (.logical op left right)
  | none => (BinaryOp.ofOpcode? opcode).map fun op => .binary op left right

/-- A test of an entry for equality with a literal. -/
def comparison? (tree : ScriptTree) (subject : Option StackEntry) (right : NodeId)
    (result : VarId) : Option Comparison :=
  match tree.node right, subject with
  | .literal label, some subject => some { result, subject, label }
  | _, _ => none

/-- Combine two values, and remember a test for equality with a literal. -/
def binary (instruction : Instruction) : Recover Unit := do
  let recovery ← get
  match instruction.operandSlots? with
  | none => throw (.unsupported (.untypedOperation instruction recovery.position))
  | some (leftWidth, rightWidth) =>
      let subject := recovery.stack.peek? (rightWidth + 1)
      let right ← takeValue rightWidth
      let left ← takeValue leftWidth
      match binaryNode? instruction.opcode left right with
      | none => throw (.unsupported (.notAnOperator instruction recovery.position))
      | some node =>
          let expression ← addNode node
          let type : Ty :=
            if instruction.opcode.isArithmetic then .simple instruction.type.arithmeticResult
            else .int
          let result ← pushValue type expression instruction.resultSlots
          modify fun recovery => { recovery with
            comparison :=
              if instruction.opcode = .equal ∧ leftWidth = 1 then
                comparison? recovery.tree subject right result
              else
                none }

/-- Change one value. -/
def unary (instruction : Instruction) : Recover Unit := do
  match UnaryOp.ofOpcode? instruction.opcode with
  | none => throw (.unsupported (.notAnOperator instruction (← get).position))
  | some op =>
      let operand ← takeValue 1
      let expression ← addNode (.unary op operand)
      let type : Ty :=
        if op = .negate ∧ instruction.type.slots = 1 then .simple instruction.type else .int
      let _ ← pushValue type expression 1

end Recover
end NwScript
