import NwScript.Bytecode.Opcode

/-!
# Operators of the script language

The operators of expressions, how they are written, how tightly they bind, and which of them may be
regrouped.
-/

namespace NwScript

/-- Binding strength, weakest first. -/
inductive Precedence where
  /-- Assignment. -/
  | assignment
  /-- Logical or. -/
  | logicalOr
  /-- Logical and. -/
  | logicalAnd
  /-- Bitwise inclusive or. -/
  | bitOr
  /-- Bitwise exclusive or. -/
  | bitXor
  /-- Bitwise and. -/
  | bitAnd
  /-- Equality and inequality. -/
  | equality
  /-- Ordering comparisons. -/
  | relational
  /-- Shifts. -/
  | shift
  /-- Addition and subtraction. -/
  | additive
  /-- Multiplication, division and remainder. -/
  | multiplicative
  /-- Operators before or behind one operand. -/
  | unary
  /-- Literals, names, calls and member access. -/
  | primary
  deriving DecidableEq, Repr, Inhabited

namespace Precedence

/-- The rank of a binding strength. -/
def rank : Precedence → Nat
  | assignment => 0
  | logicalOr => 1
  | logicalAnd => 2
  | bitOr => 3
  | bitXor => 4
  | bitAnd => 5
  | equality => 6
  | relational => 7
  | shift => 8
  | additive => 9
  | multiplicative => 10
  | unary => 11
  | primary => 12

end Precedence

/-- An operator with two operands that are both evaluated. -/
inductive BinaryOp where
  /-- Bitwise inclusive or. -/
  | bitOr
  /-- Bitwise exclusive or. -/
  | bitXor
  /-- Bitwise and. -/
  | bitAnd
  /-- Equality. -/
  | equal
  /-- Inequality. -/
  | notEqual
  /-- Greater or equal. -/
  | greaterEqual
  /-- Greater. -/
  | greater
  /-- Less. -/
  | less
  /-- Less or equal. -/
  | lessEqual
  /-- Left shift. -/
  | shiftLeft
  /-- Arithmetic right shift. -/
  | shiftRight
  /-- Logical right shift. -/
  | unsignedShiftRight
  /-- Addition. -/
  | add
  /-- Subtraction. -/
  | sub
  /-- Multiplication. -/
  | mul
  /-- Division. -/
  | div
  /-- Remainder. -/
  | mod
  deriving DecidableEq, Repr, Inhabited

namespace BinaryOp

/-- Every binary operator. -/
def all : List BinaryOp :=
  [bitOr, bitXor, bitAnd, equal, notEqual, greaterEqual, greater, less, lessEqual, shiftLeft,
    shiftRight, unsignedShiftRight, add, sub, mul, div, mod]

/-- The operator that an instruction computes. -/
def ofOpcode? : Opcode → Option BinaryOp
  | .bitOr => some bitOr
  | .bitXor => some bitXor
  | .bitAnd => some bitAnd
  | .equal => some equal
  | .notEqual => some notEqual
  | .greaterEqual => some greaterEqual
  | .greater => some greater
  | .less => some less
  | .lessEqual => some lessEqual
  | .shiftLeft => some shiftLeft
  | .shiftRight => some shiftRight
  | .unsignedShiftRight => some unsignedShiftRight
  | .add => some add
  | .sub => some sub
  | .mul => some mul
  | .div => some div
  | .mod => some mod
  | _ => none

/-- The written operator. -/
def symbol : BinaryOp → String
  | bitOr => "|"
  | bitXor => "^"
  | bitAnd => "&"
  | equal => "=="
  | notEqual => "!="
  | greaterEqual => ">="
  | greater => ">"
  | less => "<"
  | lessEqual => "<="
  | shiftLeft => "<<"
  | shiftRight => ">>"
  | unsignedShiftRight => ">>>"
  | add => "+"
  | sub => "-"
  | mul => "*"
  | div => "/"
  | mod => "%"

/-- Binding strength. -/
def precedence : BinaryOp → Precedence
  | bitOr => .bitOr
  | bitXor => .bitXor
  | bitAnd => .bitAnd
  | equal | notEqual => .equality
  | greaterEqual | greater | less | lessEqual => .relational
  | shiftLeft | shiftRight | unsignedShiftRight => .shift
  | add | sub => .additive
  | mul | div | mod => .multiplicative

/-- Chains of the operator are written without parentheses whichever way they are grouped. -/
def isAssociative : BinaryOp → Bool
  | bitOr | bitXor | bitAnd | add | mul => true
  | _ => false

end BinaryOp

/-- An operator that may skip its right operand. -/
inductive LogicalOp where
  /-- Logical and. -/
  | and
  /-- Logical or. -/
  | or
  deriving DecidableEq, Repr, Inhabited

namespace LogicalOp

/-- The operator that an instruction computes. -/
def ofOpcode? : Opcode → Option LogicalOp
  | .logAnd => some and
  | .logOr => some or
  | _ => none

/-- The written operator. -/
def symbol : LogicalOp → String
  | and => "&&"
  | or => "||"

/-- Binding strength. -/
def precedence : LogicalOp → Precedence
  | and => .logicalAnd
  | or => .logicalOr

end LogicalOp

/-- An operator before its operand. -/
inductive UnaryOp where
  /-- Arithmetic negation. -/
  | negate
  /-- Logical not. -/
  | not
  /-- Bitwise complement. -/
  | complement
  deriving DecidableEq, Repr, Inhabited

namespace UnaryOp

/-- The operator that an instruction computes. -/
def ofOpcode? : Opcode → Option UnaryOp
  | .negate => some negate
  | .not => some not
  | .complement => some complement
  | _ => none

/-- The written operator. -/
def symbol : UnaryOp → String
  | negate => "-"
  | not => "!"
  | complement => "~"

end UnaryOp

/-- An operator that changes a variable by one. -/
inductive StepOp where
  /-- Add one. -/
  | increment
  /-- Subtract one. -/
  | decrement
  deriving DecidableEq, Repr, Inhabited

namespace StepOp

/-- The written operator. -/
def symbol : StepOp → String
  | increment => "++"
  | decrement => "--"

end StepOp
end NwScript
