import NwScript.Bytecode.Opcode
import NwScript.Bytecode.TypeCode
import NwScript.Text.Binary32

/-!
# Instructions

An instruction is an opcode, a type code and decoded operand fields.  The encoded size depends on
the operand alone, and a relative offset is a jump distance only for the four jump opcodes.
-/

namespace NwScript

/-- The literal operand of a constant. -/
inductive Constant where
  /-- An integer. -/
  | int (value : Int)
  /-- A float, given by its bits. -/
  | float (bits : Binary32)
  /-- A string. -/
  | string (value : String)
  /-- An object identifier; zero is the caller and one is no object. -/
  | object (value : Int)
  deriving DecidableEq, Repr, Inhabited

namespace Constant

/-- The type code of a literal. -/
def typeCode : Constant → TypeCode
  | int _ => .int
  | float _ => .float
  | string _ => .string
  | object _ => .object

end Constant

/-- The decoded operand fields of an instruction. -/
inductive Operand where
  /-- No operand bytes. -/
  | none
  /-- A literal. -/
  | literal (value : Constant)
  /-- A stack copy: byte offset of the first copied byte, and number of bytes. -/
  | stack (offset : Int) (size : Nat)
  /-- A relative byte offset. -/
  | offset (value : Int)
  /-- An engine action and its number of arguments. -/
  | action (id argumentCount : Nat)
  /-- Bytes removed, byte offset of the kept element among them, and bytes kept. -/
  | destruct (size offset keep : Nat)
  /-- Saved global and local bytes. -/
  | state (globals locals : Nat)
  /-- Size in bytes of compared aggregates. -/
  | size (bytes : Nat)
  deriving DecidableEq, Repr, Inhabited

/-- A decoded instruction. -/
structure Instruction where
  /-- The opcode. -/
  opcode : Opcode
  /-- The type code. -/
  type : TypeCode
  /-- The operand fields. -/
  operand : Operand
  deriving DecidableEq, Repr, Inhabited

namespace Instruction

/-- Bytes of a jump. -/
def jumpSize : Nat := 6

/-- Distance from a jump over exactly one following jump. -/
def skipOne : Nat := 12

/-- Bytes before the first instruction of a file. -/
def headerSize : Nat := 13

/-- An instruction without operand. -/
def simple (opcode : Opcode) (type : TypeCode) : Instruction :=
  ⟨opcode, type, .none⟩

/-- A push of a literal. -/
def constant (value : Constant) : Instruction :=
  ⟨.const, value.typeCode, .literal value⟩

/-- A jump by a relative offset. -/
def jump (opcode : Opcode) (offset : Int) : Instruction :=
  ⟨opcode, .void, .offset offset⟩

/-- Encoded size in bytes. -/
def size (instruction : Instruction) : Nat :=
  match instruction.operand with
  | .none => 2
  | .literal (.string value) => 4 + value.utf8ByteSize
  | .literal _ => 6
  | .stack _ _ => 8
  | .offset _ => 6
  | .action _ _ => 5
  | .destruct _ _ _ => 8
  | .state _ _ => 10
  | .size _ => 4

/-- The relative offset operand. -/
def offset? (instruction : Instruction) : Option Int :=
  match instruction.operand with
  | .offset value => some value
  | _ => none

/-- The distance of a jump. -/
def jumpOffset? (instruction : Instruction) : Option Int :=
  if instruction.opcode.isJump then instruction.offset? else none

/-- Offset and size of a stack copy, in bytes. -/
def stackOperand? (instruction : Instruction) : Option (Int × Nat) :=
  match instruction.operand with
  | .stack offset size => some (offset, size)
  | _ => none

/-- Identifier and argument count of an engine action. -/
def actionOperand? (instruction : Instruction) : Option (Nat × Nat) :=
  match instruction.operand with
  | .action id argumentCount => some (id, argumentCount)
  | _ => none

/-- Size in bytes of compared aggregates. -/
def structSize? (instruction : Instruction) : Option Nat :=
  match instruction.operand with
  | .size bytes => some bytes
  | _ => none

theorem size_pos (instruction : Instruction) : 0 < instruction.size := by
  unfold size
  split <;> omega

end Instruction
end NwScript
