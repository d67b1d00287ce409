import NwScript.Bytecode.Instruction
import NwScript.Script.Operator

/-!
# Script nodes

Statements and expressions share one type.  A node refers to its operands and its child statements by
number; nodes that own statements carry a body with the byte range that the statements came from.
-/

namespace NwScript

/-- Number of a node in its tree. -/
abbrev NodeId := Nat

/-- Number of a variable in its table. -/
abbrev VarId := Nat

/-- The statements of a node and their byte range. -/
structure Body where
  /-- Child statements in order. -/
  children : List NodeId := []
  /-- Position of the first instruction. -/
  start : Nat
  /-- Position behind the last instruction. -/
  limit : Nat
  deriving DecidableEq, Repr, Inhabited

namespace Body

/-- The range holds a position. -/
def holds (body : Body) (position : Nat) : Bool :=
  body.start ≤ position && position < body.limit

end Body

/-- A statement or an expression. -/
inductive Node where
  /-- The body of a subroutine or a nested scope. -/
  | block (body : Body)
  /-- A guarded body; `skip` is where the jump over its else branch leads. -/
  | branch (condition : Option NodeId) (body : Body) (skip : Option Nat)
  /-- The else branch of the branch before it. -/
  | otherwise (body : Body)
  /-- A loop that tests before its body. -/
  | whileLoop (condition : Option NodeId) (body : Body)
  /-- A loop that tests behind its body. -/
  | doLoop (condition : Option NodeId) (body : Body)
  /-- A switch, whose children are its cases. -/
  | switch (subject : NodeId) (body : Body)
  /-- A case of a switch; the default case has no label. -/
  | case (label : Option NodeId) (body : Body)
  /-- A deferred action argument, whose statements run when the action does. -/
  | closure (body : Body)
  /-- A declaration; `pending` marks a call result that no use has claimed yet. -/
  | declaration (var : VarId) (init : Option NodeId) (pending : Bool)
  /-- An expression evaluated for its effects. -/
  | statement (value : NodeId)
  /-- A return. -/
  | ret (value : Option NodeId)
  /-- A jump out of a loop or switch. -/
  | leave
  /-- A jump to the next turn of a loop. -/
  | next
  /-- A comment that marks something that was not recovered. -/
  | comment (text : String)
  /-- A literal. -/
  | literal (value : Constant)
  /-- A use of a variable. -/
  | reference (var : VarId)
  /-- A named member of an aggregate. -/
  | member (base : NodeId) (field : String)
  /-- A vector of three components. -/
  | vector (x y z : NodeId)
  /-- An assignment. -/
  | assign (target value : NodeId)
  /-- An operation that evaluates both operands. -/
  | binary (op : BinaryOp) (left right : NodeId)
  /-- An operation that may skip its right operand. -/
  | logical (op : LogicalOp) (left right : NodeId)
  /-- An operation on one operand. -/
  | unary (op : UnaryOp) (operand : NodeId)
  /-- A change of a variable by one, whose value is the new one if `before` holds. -/
  | step (op : StepOp) (before : Bool) (target : NodeId)
  /-- A call of an engine action. -/
  | action (id : Nat) (name : String) (arguments : List NodeId)
  /-- A call of a subroutine. -/
  | call (sub : Nat) (name : String) (arguments : List NodeId)
  /-- A stand-in for a value that was not recovered. -/
  | placeholder (name : String)
  deriving DecidableEq, Repr, Inhabited

namespace Node

/-- The stand-in for a value that is missing. -/
def unknownOperand : String := "__unknown_operand"

/-- The body of a node that owns statements. -/
def body? : Node → Option Body
  | block body | branch _ body _ | otherwise body | whileLoop _ body | doLoop _ body
  | switch _ body | case _ body | closure body => some body
  | _ => none

/-- Change the body of a node that owns statements. -/
def mapBody (change : Body → Body) : Node → Node
  | block body => block (change body)
  | branch condition body skip => branch condition (change body) skip
  | otherwise body => otherwise (change body)
  | whileLoop condition body => whileLoop condition (change body)
  | doLoop condition body => doLoop condition (change body)
  | switch subject body => switch subject (change body)
  | case label body => case label (change body)
  | closure body => closure (change body)
  | node => node

/-- The operands of a node in the order of evaluation. -/
def operands : Node → List NodeId
  | branch condition _ _ => condition.toList
  | whileLoop condition _ => condition.toList
  | doLoop condition _ => condition.toList
  | switch subject _ => [subject]
  | case label _ => label.toList
  | declaration _ init _ => init.toList
  | statement value => [value]
  | ret value => value.toList
  | member base _ => [base]
  | vector x y z => [x, y, z]
  | assign target value => [target, value]
  | binary _ left right => [left, right]
  | logical _ left right => [left, right]
  | unary _ operand => [operand]
  | step _ _ target => [target]
  | action _ _ arguments => arguments
  | call _ _ arguments => arguments
  | _ => []

/-- Replace the operands of an expression, in the order of evaluation. -/
def mapOperandsM {m : Type → Type} [Monad m] (change : NodeId → m NodeId) : Node → m Node
  | member base field => return member (← change base) field
  | vector x y z => return vector (← change x) (← change y) (← change z)
  | assign target value => return assign (← change target) (← change value)
  | binary op left right => return binary op (← change left) (← change right)
  | logical op left right => return logical op (← change left) (← change right)
  | unary op operand => return unary op (← change operand)
  | step op before target => return step op before (← change target)
  | action id name arguments => return action id name (← arguments.mapM change)
  | call sub name arguments => return call sub name (← arguments.mapM change)
  | node => pure node

/-- A declaration whose call result stays in it. -/
def settled : Node → Node
  | declaration var init _ => declaration var init false
  | node => node

/-- A node that produces a value. -/
def isExpression : Node → Bool
  | literal _ | reference _ | member _ _ | vector _ _ _ | assign _ _ | binary _ _ _ | logical _ _ _
  | unary _ _ | step _ _ _ | action _ _ _ | call _ _ _ | placeholder _ | closure _ => true
  | _ => false

/-- A node whose evaluation changes the state of the program. -/
def isEffect : Node → Bool
  | assign _ _ | step _ _ _ | action _ _ _ | call _ _ _ => true
  | _ => false

/-- A loop. -/
def isLoop : Node → Bool
  | whileLoop _ _ | doLoop _ _ => true
  | _ => false

/-- A switch. -/
def isSwitch : Node → Bool
  | switch _ _ => true
  | _ => false

/-- A nested scope. -/
def isBlock : Node → Bool
  | block _ => true
  | _ => false

/-- A deferred action argument. -/
def isClosure : Node → Bool
  | closure _ => true
  | _ => false

/-- Binding strength of an expression. -/
def precedence : Node → Precedence
  | assign _ _ => .assignment
  | logical op _ _ => op.precedence
  | binary op _ _ => op.precedence
  | unary _ _ | step _ _ _ => .unary
  | _ => .primary

@[simp]
theorem body?_mapBody (change : Body → Body) (node : Node) :
    (node.mapBody change).body? = node.body?.map change := by
  cases node <;> rfl

@[simp]
theorem operands_mapBody (change : Body → Body) (node : Node) :
    (node.mapBody change).operands = node.operands := by
  cases node <;> rfl

end Node
end NwScript
