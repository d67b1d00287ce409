import NwScript.Bytecode.Instruction
import NwScript.Script.Operator
import NwScript.Text.Quoted

/-!
# Expressions and their source text

An expression in its own right, apart from the tree that holds it.  The source text has parentheses
around an operand that binds more weakly than its operator, and around a right operand that binds as
tightly, unless it continues a chain that may be regrouped.
-/

namespace NwScript

/-- The source spelling of a literal. -/
def Constant.sourceText : Constant → String
  | .int value => toString value
  | .float bits => bits.sourceText
  | .string value => Quoted.literal value
  | .object 0 => "OBJECT_SELF"
  | .object 1 => "OBJECT_INVALID"
  | .object value => toString value

/-- An expression. -/
inductive Expression where
  /-- A name. -/
  | word (name : String)
  /-- A literal. -/
  | literal (value : Constant)
  /-- An intermediate value or a deferred argument, written without parentheses of its own. -/
  | inlined (value : Expression)
  /-- A member of an aggregate. -/
  | member (base : Expression) (field : String)
  /-- A vector of three components. -/
  | vector (x y z : Expression)
  /-- An assignment. -/
  | assign (target value : Expression)
  /-- An operation that evaluates both operands. -/
  | binary (op : BinaryOp) (left right : Expression)
  /-- An operation that may skip its right operand. -/
  | logical (op : LogicalOp) (left right : Expression)
  /-- An operation on one operand. -/
  | unary (op : UnaryOp) (operand : Expression)
  /-- A change of a variable by one. -/
  | step (op : StepOp) (before : Bool) (target : Expression)
  /-- A call. -/
  | call (name : String) (arguments : List Expression)
  deriving Repr, Inhabited

namespace Expression

/-- Binding strength. -/
def precedence : Expression → Precedence
  | assign _ _ => .assignment
  | binary op _ _ => op.precedence
  | logical op _ _ => op.precedence
  | unary _ _ | step _ _ _ => .unary
  | _ => .primary

/-- An operand binds more weakly than its operator. -/
def isWeakerThan (operand : Expression) (parent : Precedence) : Bool :=
  operand.precedence.rank < parent.rank

/-- An operand chains a binary operator that may be regrouped. -/
def continues (op : BinaryOp) : Expression → Bool
  | binary inner _ _ => op = inner && op.isAssociative
  | _ => false

/-- An operand chains a logical operator. -/
def continuesLogical (op : LogicalOp) : Expression → Bool
  | logical inner _ _ => op = inner
  | _ => false

/-- A right operand of a binary operator stands in parentheses. -/
def isWrappedRight (op : BinaryOp) (operand : Expression) : Bool :=
  operand.isWeakerThan op.precedence ||
    (operand.precedence = op.precedence && !operand.continues op)

/-- A right operand of a logical operator stands in parentheses. -/
def isWrappedRightLogical (op : LogicalOp) (operand : Expression) : Bool :=
  operand.isWeakerThan op.precedence ||
    (operand.precedence = op.precedence && !operand.continuesLogical op)

/-- Text in parentheses if they are needed. -/
def enclose (needed : Bool) (text : String) : String :=
  if needed then "(" ++ text ++ ")" else text

/-- An operator before its operand; an operand that starts with the operator is set apart. -/
def before (symbol inner : String) : String :=
  symbol ++ enclose (symbol.toList.isPrefixOf inner.toList) inner

mutual

/-- Source text of an expression. -/
def text : Expression → String
  | word name => name
  | literal value => value.sourceText
  | inlined value => value.text
  | member base field => enclose (base.isWeakerThan .primary) base.text ++ "." ++ field
  | vector x y z => "[" ++ x.text ++ ", " ++ y.text ++ ", " ++ z.text ++ "]"
  | assign target value =>
      enclose (target.isWeakerThan .assignment) target.text ++ " = " ++
        enclose (value.isWeakerThan .assignment) value.text
  | binary op left right =>
      enclose (left.isWeakerThan op.precedence) left.text ++ " " ++ op.symbol ++ " " ++
        enclose (right.isWrappedRight op) right.text
  | logical op left right =>
      enclose (left.isWeakerThan op.precedence) left.text ++ " " ++ op.symbol ++ " " ++
        enclose (right.isWrappedRightLogical op) right.text
  | unary op operand => before op.symbol (enclose (operand.isWeakerThan .unary) operand.text)
  | step op true target => op.symbol ++ enclose (target.isWeakerThan .unary) target.text
  | step op false target => enclose (target.isWeakerThan .unary) target.text ++ op.symbol
  | call name arguments => name ++ "(" ++ ", ".intercalate (texts arguments) ++ ")"

/-- Source text of each of some expressions. -/
def texts : List Expression → List String
  | [] => []
  | value :: values => value.text :: texts values

end

/-- Nothing binds more weakly than an assignment. -/
@[simp]
theorem isWeakerThan_assignment (value : Expression) : value.isWeakerThan .assignment = false := by
  simp [isWeakerThan, Precedence.rank]

theorem texts_eq_map (values : List Expression) : texts values = values.map text := by
  induction values with
  | nil => simp [texts]
  | cons value values induction => simp [texts, induction]

end Expression
end NwScript
