import NwScript.Bytecode.ActionCatalog
import NwScript.Bytecode.Instruction

/-!
# Stack effects

How many slots an instruction pops and pushes, read off its opcode, type code and operands.  The
effect of an engine action needs its signature and that of a call the callee's parameter slots; an
instruction whose operands do not determine it has no effect.
-/

namespace NwScript

/-- Slots popped and pushed by an instruction. -/
structure StackEffect where
  /-- Slots popped. -/
  pops : Nat
  /-- Slots pushed. -/
  pushes : Nat
  deriving DecidableEq, Repr, Inhabited

namespace StackEffect

/-- Change of the stack height. -/
def net (effect : StackEffect) : Int :=
  (effect.pushes : Int) - effect.pops

end StackEffect

namespace ActionCatalog

/-- Slots popped and pushed by a call of an action with `argumentCount` arguments. -/
def slots? (catalog : ActionCatalog) (id argumentCount : Nat) : Option (Nat × Nat) :=
  (catalog.find? id).map fun signature =>
    (Ty.slotsOf (signature.params.take argumentCount), signature.returnType.slots)

end ActionCatalog

namespace Instruction

/-- Widths in slots of the left and the right operand of a binary instruction. -/
def operandSlots? (instruction : Instruction) : Option (Nat × Nat) :=
  if instruction.type = .structStruct then
    instruction.structSize?.map fun bytes => (bytes / 4, bytes / 4)
  else
    instruction.type.operands.map fun pair => (pair.1.slots, pair.2.slots)

/-- Width in slots of the result of a binary instruction. -/
def resultSlots (instruction : Instruction) : Nat :=
  if instruction.opcode.isArithmetic then instruction.type.arithmeticResult.slots else 1

/-- Slots popped and pushed; `calleeSlots` is the number of parameter slots of a callee. -/
def stackEffect? (instruction : Instruction) (catalog : ActionCatalog)
    (calleeSlots : Option Nat) : Option StackEffect :=
  match instruction.opcode with
  | .reserve => some ⟨0, instruction.type.slots⟩
  | .const => some ⟨0, 1⟩
  | .copyTop | .copyTopBase =>
      instruction.stackOperand?.map fun operand => ⟨0, operand.2 / 4⟩
  | .moveStack => instruction.offset?.map fun offset => ⟨offset.natAbs / 4, 0⟩
  | .action => do
      let (id, argumentCount) ← instruction.actionOperand?
      let (pops, pushes) ← catalog.slots? id argumentCount
      return ⟨pops, pushes⟩
  | .call => calleeSlots.map fun slots => ⟨slots, 0⟩
  | .jumpZero | .jumpNonzero => some ⟨1, 0⟩
  | .destruct =>
      match instruction.operand with
      | .destruct size _ keep => some ⟨size / 4, keep / 4⟩
      | _ => none
  | opcode =>
      if opcode.isBinary then
        instruction.operandSlots?.map fun widths =>
          ⟨widths.1 + widths.2, instruction.resultSlots⟩
      else if opcode.isUnary then
        some ⟨1, 1⟩
      else
        some ⟨0, 0⟩

end Instruction
end NwScript
