import NwScript.Bytecode.Instruction
import NwScript.Text.Escaped

/-!
# Listings of instructions

An instruction is listed as its mnemonic, the name of its type code where that selects the
operation, and its operands.
-/

namespace NwScript

namespace Constant

/-- A literal in a listing. -/
def listing : Constant → String
  | int value => toString value
  | float bits => bits.text
  | string value => Escaped.quote value
  | object value => toString value

end Constant

namespace Operand

/-- Operand fields in a listing, after a blank. -/
def listing : Operand → String
  | none => ""
  | literal value => " " ++ value.listing
  | stack start bytes => " " ++ toString start ++ ", " ++ toString bytes
  | offset value => " " ++ toString value
  | action id argumentCount => " " ++ toString id ++ "(" ++ toString argumentCount ++ ")"
  | destruct removed start kept =>
      " " ++ toString removed ++ ", " ++ toString start ++ ", " ++ toString kept
  | state globals locals => " " ++ toString globals ++ ", " ++ toString locals
  | size bytes => " " ++ toString bytes

end Operand

namespace Instruction

/-- The type code is part of the mnemonic of reservations, literals and paired operations. -/
def suffix (instruction : Instruction) : String :=
  if instruction.opcode = .reserve ∨ instruction.opcode = .const ∨ instruction.type.isPair then
    instruction.type.name
  else
    ""

/-- The listing line of an instruction. -/
def listing (instruction : Instruction) : String :=
  instruction.opcode.mnemonic ++ instruction.suffix ++ instruction.operand.listing

end Instruction
end NwScript
