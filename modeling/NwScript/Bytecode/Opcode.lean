/-!
# Opcodes

The first byte of every instruction is its opcode.  This file lists the forty-five opcodes with
their bytes, their mnemonics and the classes that the analyses ask for.
-/

namespace NwScript

/-- An opcode of the instruction set. -/
inductive Opcode where
  /-- Copy the top of the stack down into a slot below the stack pointer. -/
  | copyDown
  /-- Reserve a typed slot. -/
  | reserve
  /-- Copy a slot below the stack pointer to the top. -/
  | copyTop
  /-- Push a literal. -/
  | const
  /-- Call an engine action. -/
  | action
  /-- Logical and. -/
  | logAnd
  /-- Logical or. -/
  | logOr
  /-- Bitwise inclusive or. -/
  | bitOr
  /-- Bitwise exclusive or. -/
  | bitXor
  /-- Bitwise and. -/
  | bitAnd
  /-- Equality. -/
  | equal
  /-- Inequality. -/
  | notEqual
  /-- Greater or equal. -/
  | greaterEqual
  /-- Greater. -/
  | greater
  /-- Less. -/
  | less
  /-- Less or equal. -/
  | lessEqual
  /-- Left shift. -/
  | shiftLeft
  /-- Arithmetic right shift. -/
  | shiftRight
  /-- Logical right shift. -/
  | unsignedShiftRight
  /-- Addition and string concatenation. -/
  | add
  /-- Subtraction. -/
  | sub
  /-- Multiplication. -/
  | mul
  /-- Division. -/
  | div
  /-- Remainder. -/
  | mod
  /-- Arithmetic negation. -/
  | negate
  /-- Bitwise complement. -/
  | complement
  /-- Move the stack pointer, popping slots. -/
  | moveStack
  /-- Save the whole machine state. -/
  | storeStateAll
  /-- Unconditional jump. -/
  | jump
  /-- Jump to a subroutine. -/
  | call
  /-- Jump when the popped value is zero. -/
  | jumpZero
  /-- Return from a subroutine. -/
  | ret
  /-- Remove a region of the stack except one element of it. -/
  | destruct
  /-- Logical not. -/
  | not
  /-- Decrement an integer below the stack pointer. -/
  | decrement
  /-- Increment an integer below the stack pointer. -/
  | increment
  /-- Jump when the popped value is not zero. -/
  | jumpNonzero
  /-- Copy the top of the stack down into a global slot. -/
  | copyDownBase
  /-- Copy a global slot to the top. -/
  | copyTopBase
  /-- Decrement a global integer. -/
  | decrementBase
  /-- Increment a global integer. -/
  | incrementBase
  /-- Make the current stack the global frame. -/
  | saveBase
  /-- Restore the previous global frame. -/
  | restoreBase
  /-- Save the machine state for a deferred action argument. -/
  | storeState
  /-- No operation. -/
  | nop
  deriving DecidableEq, Repr, Inhabited

namespace Opcode

/-- Every opcode, in the order of its byte. -/
def all : List Opcode :=
  [copyDown, reserve, copyTop, const, action, logAnd, logOr, bitOr, bitXor, bitAnd, equal,
    notEqual, greaterEqual, greater, less, lessEqual, shiftLeft, shiftRight, unsignedShiftRight,
    add, sub, mul, div, mod, negate, complement, moveStack, storeStateAll, jump, call, jumpZero,
    ret, destruct, not, decrement, increment, jumpNonzero, copyDownBase, copyTopBase,
    decrementBase, incrementBase, saveBase, restoreBase, storeState, nop]

/-- The byte that encodes an opcode. -/
def byte : Opcode → UInt8
  | copyDown => 0x01
  | reserve => 0x02
  | copyTop => 0x03
  | const => 0x04
  | action => 0x05
  | logAnd => 0x06
  | logOr => 0x07
  | bitOr => 0x08
  | bitXor => 0x09
  | bitAnd => 0x0A
  | equal => 0x0B
  | notEqual => 0x0C
  | greaterEqual => 0x0D
  | greater => 0x0E
  | less => 0x0F
  | lessEqual => 0x10
  | shiftLeft => 0x11
  | shiftRight => 0x12
  | unsignedShiftRight => 0x13
  | add => 0x14
  | sub => 0x15
  | mul => 0x16
  | div => 0x17
  | mod => 0x18
  | negate => 0x19
  | complement => 0x1A
  | moveStack => 0x1B
  | storeStateAll => 0x1C
  | jump => 0x1D
  | call => 0x1E
  | jumpZero => 0x1F
  | ret => 0x20
  | destruct => 0x21
  | not => 0x22
  | decrement => 0x23
  | increment => 0x24
  | jumpNonzero => 0x25
  | copyDownBase => 0x26
  | copyTopBase => 0x27
  | decrementBase => 0x28
  | incrementBase => 0x29
  | saveBase => 0x2A
  | restoreBase => 0x2B
  | storeState => 0x2C
  | nop => 0x2D

/-- The mnemonic of an opcode, without the suffix of its type code. -/
def mnemonic : Opcode → String
  | copyDown => "CPDOWNSP"
  | reserve => "RSADD"
  | copyTop => "CPTOPSP"
  | const => "CONST"
  | action => "ACTION"
  | logAnd => "LOGAND"
  | logOr => "LOGOR"
  | bitOr => "INCOR"
  | bitXor => "EXCOR"
  | bitAnd => "BOOLAND"
  | equal => "EQUAL"
  | notEqual => "NEQUAL"
  | greaterEqual => "GEQ"
  | greater => "GT"
  | less => "LT"
  | lessEqual => "LEQ"
  | shiftLeft => "SHLEFT"
  | shiftRight => "SHRIGHT"
  | unsignedShiftRight => "USHRIGHT"
  | add => "ADD"
  | sub => "SUB"
  | mul => "MUL"
  | div => "DIV"
  | mod => "MOD"
  | negate => "NEG"
  | complement => "COMP"
  | moveStack => "MOVSP"
  | storeStateAll => "STORE_STATEALL"
  | jump => "JMP"
  | call => "JSR"
  | jumpZero => "JZ"
  | ret => "RETN"
  | destruct => "DESTRUCT"
  | not => "NOT"
  | decrement => "DECISP"
  | increment => "INCISP"
  | jumpNonzero => "JNZ"
  | copyDownBase => "CPDOWNBP"
  | copyTopBase => "CPTOPBP"
  | decrementBase => "DECIBP"
  | incrementBase => "INCIBP"
  | saveBase => "SAVEBP"
  | restoreBase => "RESTOREBP"
  | storeState => "STORE_STATE"
  | nop => "NOP"

/-- The opcode encoded by a byte, when there is one. -/
def ofByte? (byte : UInt8) : Option Opcode :=
  all.find? fun opcode => opcode.byte = byte

/-- The opcode with a given mnemonic, when there is one. -/
def ofMnemonic? (mnemonic : String) : Option Opcode :=
  all.find? fun opcode => opcode.mnemonic = mnemonic

theorem mem_all (opcode : Opcode) : opcode ∈ all := by
  cases opcode <;> decide

theorem ofByte?_byte (opcode : Opcode) : ofByte? opcode.byte = some opcode := by
  cases opcode <;> decide

/-- An instruction whose operand is a relative byte offset to another instruction. -/
def isJump : Opcode → Bool
  | jump | call | jumpZero | jumpNonzero => true
  | _ => false

/-- A jump that pops its condition. -/
def isConditional : Opcode → Bool
  | jumpZero | jumpNonzero => true
  | _ => false

/-- A comparison that produces an integer truth value. -/
def isComparison : Opcode → Bool
  | equal | notEqual | greaterEqual | greater | less | lessEqual => true
  | _ => false

/-- A two-operand arithmetic, bitwise, logical or comparison operator. -/
def isBinary : Opcode → Bool
  | logAnd | logOr | bitOr | bitXor | bitAnd | shiftLeft | shiftRight | unsignedShiftRight
  | add | sub | mul | div | mod => true
  | opcode => opcode.isComparison

/-- A one-operand operator. -/
def isUnary : Opcode → Bool
  | negate | complement | not => true
  | _ => false

/-- An operator whose result type follows from its operand pair. -/
def isArithmetic : Opcode → Bool
  | add | sub | mul | div => true
  | _ => false

/-- An instruction that saves the machine state for a deferred action argument. -/
def isStateSave : Opcode → Bool
  | storeState | storeStateAll => true
  | _ => false

end Opcode
end NwScript
