import NwScript.Script.Statement
import NwScript.Script.Tree

/-!
# Reading a tree

The expression and the statements that the nodes of a tree spell.  An intermediate value reads as the
expression it stands for, a deferred argument as the one expression it evaluates.  Reading descends
at most as deep as the tree has nodes, which is enough for every acyclic tree.
-/

namespace NwScript
namespace ScriptTree

/-- What a use of an intermediate value stands for. -/
def temporaryValue? (tree : ScriptTree) (var : VarId) : Option NodeId :=
  match tree.vars.get? var with
  | some entry => if entry.kind = .temp then entry.value else none
  | none => none

/-- The expression that a single statement of a deferred argument evaluates. -/
def deferredValue? (tree : ScriptTree) (statement : NodeId) : Option NodeId :=
  match tree.node statement with
  | .statement value => some value
  | .declaration _ init _ => init
  | node => if node.isExpression then some statement else none

/-- The expression that a closure evaluates if it holds one statement. -/
def closureValue? (tree : ScriptTree) (body : Body) : Option NodeId :=
  match body.children with
  | [statement] => tree.deferredValue? statement
  | _ => none

/-- The stand-in for an expression that is missing. -/
def missing : Expression :=
  .word Node.unknownOperand

/-- The expression that a node spells, at most `depth` nodes deep. -/
def expressionFrom (tree : ScriptTree) : (depth : Nat) → NodeId → Expression
  | 0, _ => missing
  | depth + 1, id =>
      match tree.node id with
      | .literal value => .literal value
      | .reference var =>
          match tree.temporaryValue? var with
          | some value => .inlined (expressionFrom tree depth value)
          | none => .word (tree.varName var)
      | .member base field => .member (expressionFrom tree depth base) field
      | .vector x y z =>
          .vector (expressionFrom tree depth x) (expressionFrom tree depth y)
            (expressionFrom tree depth z)
      | .assign target value =>
          .assign (expressionFrom tree depth target) (expressionFrom tree depth value)
      | .binary op left right =>
          .binary op (expressionFrom tree depth left) (expressionFrom tree depth right)
      | .logical op left right =>
          .logical op (expressionFrom tree depth left) (expressionFrom tree depth right)
      | .unary op operand => .unary op (expressionFrom tree depth operand)
      | .step op before target => .step op before (expressionFrom tree depth target)
      | .action _ name arguments | .call _ name arguments =>
          .call name (arguments.map (expressionFrom tree depth))
      | .closure body =>
          match tree.closureValue? body with
          | some value => .inlined (expressionFrom tree depth value)
          | none => missing
      | .placeholder name => .word name
      | _ => missing

/-- The expression that a node spells. -/
def expression (tree : ScriptTree) (id : NodeId) : Expression :=
  tree.expressionFrom (tree.size + 1) id

/-- The expression of an operand that may be missing. -/
def expressionD (tree : ScriptTree) (id : Option NodeId) : Expression :=
  (id.map tree.expression).getD missing

/-- Type and name of a variable. -/
def declarationText (tree : ScriptTree) (var : VarId) : String :=
  tree.structs.spell (tree.vars.type var) ++ " " ++ tree.varName var

/-- The statement that a node spells, at most `depth` nodes deep. -/
def statementFrom (tree : ScriptTree) : (depth : Nat) → NodeId → Statement
  | 0, id => .evaluate (tree.expression id)
  | depth + 1, id =>
      let body (body : Body) := Statement.pairElse (body.children.map (statementFrom tree depth))
      match tree.node id with
      | .block inner | .closure inner => .block (body inner)
      | .branch condition inner _ => .branch (tree.expressionD condition) (body inner)
      | .otherwise inner => .otherwise (body inner)
      | .whileLoop condition inner => .whileLoop (tree.expressionD condition) (body inner)
      | .doLoop condition inner => .doLoop (tree.expressionD condition) (body inner)
      | .switch subject inner =>
          .switch (tree.expression subject) (inner.children.map (statementFrom tree depth))
      | .case label inner => .case (label.map tree.expression) (body inner)
      | .declaration var init _ =>
          .declaration (tree.declarationText var) (init.map tree.expression)
      | .statement value => .evaluate (tree.expression value)
      | .ret value => .ret (value.map tree.expression)
      | .leave => .leave
      | .next => .next
      | .comment text => .comment text
      | _ => .evaluate (tree.expression id)

/-- The statements that the body of a node spells. -/
def statementsOf (tree : ScriptTree) (id : NodeId) : List Statement :=
  Statement.pairElse ((tree.children id).map (tree.statementFrom tree.size))

/-- The statements of the subroutine. -/
def statements (tree : ScriptTree) : List Statement :=
  tree.statementsOf root

/-- Source text of an expression. -/
def render (tree : ScriptTree) (id : NodeId) : String :=
  (tree.expression id).text

/-- Result type, name and parameters. -/
def prototype (tree : ScriptTree) : String :=
  tree.structs.spell tree.signature.returnType ++ " " ++ tree.signature.name ++ "(" ++
    ", ".intercalate (tree.signature.params.map tree.declarationText) ++ ")"

/-- Source text of the subroutine: a function, or global declarations without braces. -/
def text (tree : ScriptTree) : String :=
  match tree.kind with
  | .function =>
      tree.prototype ++ " \x7b\n" ++ Statement.lines tree.indent 1 tree.statements ++ "\x7d\n"
  | .globals => Statement.lines tree.indent 0 tree.statements

end ScriptTree
end NwScript
