import NwScript.Script.Expression

/-!
# Statements and their source text

A statement in its own right, apart from the tree that holds it.  A branch owns its else branch, and
an else branch that is nothing but another branch is written as a chain.
-/

namespace NwScript

/-- A statement. -/
inductive Statement where
  /-- Statements in braces. -/
  | block (body : List Statement)
  /-- A branch without an else branch. -/
  | branch (condition : Expression) (body : List Statement)
  /-- A branch with an else branch. -/
  | branchElse (condition : Expression) (body other : List Statement)
  /-- An else branch that no branch owns. -/
  | otherwise (body : List Statement)
  /-- A loop that tests before its body. -/
  | whileLoop (condition : Expression) (body : List Statement)
  /-- A loop that tests behind its body. -/
  | doLoop (condition : Expression) (body : List Statement)
  /-- A switch and its cases. -/
  | switch (subject : Expression) (cases : List Statement)
  /-- A case of a switch; the default case has no label. -/
  | case (label : Option Expression) (body : List Statement)
  /-- A declaration, given by type and name. -/
  | declaration (name : String) (init : Option Expression)
  /-- An expression evaluated for its effects. -/
  | evaluate (value : Expression)
  /-- A return. -/
  | ret (value : Option Expression)
  /-- A jump out of a loop or switch. -/
  | leave
  /-- A jump to the next turn of a loop. -/
  | next
  /-- A comment. -/
  | comment (text : String)
  deriving Repr, Inhabited

namespace Statement

/-- Give every else branch to the branch right before it. -/
def pairElse : List Statement → List Statement
  | branch condition body :: otherwise other :: rest =>
      branchElse condition body other :: pairElse rest
  | statement :: rest => statement :: pairElse rest
  | [] => []

/-- A branch, with or without an else branch. -/
def isBranch : Statement → Bool
  | branch _ _ | branchElse _ _ _ => true
  | _ => false

/-- An else branch that is nothing but another branch. -/
def isChained : List Statement → Bool
  | [statement] => statement.isBranch
  | _ => false

/-- Padding of a line. -/
def pad (indent : String) (depth : Nat) : String :=
  String.join (List.replicate depth indent)

/-- A header, and statements in braces behind it. -/
def braced (header body padding : String) : String :=
  header ++ "\x7b\n" ++ body ++ padding ++ "\x7d"

mutual

/-- A statement without the padding before it and the line end behind it. -/
def bare (indent : String) (depth : Nat) : Statement → String
  | block body => braced "" (lines indent (depth + 1) body) (pad indent depth)
  | branch condition body =>
      braced ("if (" ++ condition.text ++ ") ") (lines indent (depth + 1) body) (pad indent depth)
  | branchElse condition body other =>
      braced ("if (" ++ condition.text ++ ") ") (lines indent (depth + 1) body)
        (pad indent depth) ++ " else " ++
          (if isChained other then first indent depth other
          else braced "" (lines indent (depth + 1) other) (pad indent depth))
  | otherwise body => braced "else " (lines indent (depth + 1) body) (pad indent depth)
  | whileLoop condition body =>
      braced ("while (" ++ condition.text ++ ") ") (lines indent (depth + 1) body)
        (pad indent depth)
  | doLoop condition body =>
      braced "do " (lines indent (depth + 1) body) (pad indent depth) ++
        " while (" ++ condition.text ++ ");"
  | switch subject cases =>
      braced ("switch (" ++ subject.text ++ ") ") (lines indent (depth + 1) cases)
        (pad indent depth)
  | case (some label) body =>
      "case " ++ label.text ++ ":" ++ beneath indent depth body
  | case none body => "default:" ++ beneath indent depth body
  | declaration name (some init) => name ++ " = " ++ init.text ++ ";"
  | declaration name none => name ++ ";"
  | evaluate value => value.text ++ ";"
  | ret (some value) => "return " ++ value.text ++ ";"
  | ret none => "return;"
  | leave => "break;"
  | next => "continue;"
  | comment text => "/* " ++ text ++ " */"

/-- Statements on lines of their own. -/
def lines (indent : String) (depth : Nat) : List Statement → String
  | [] => ""
  | statement :: rest =>
      pad indent depth ++ bare indent depth statement ++ "\n" ++ lines indent depth rest

/-- Statements below a line, the last one without its line end. -/
def beneath (indent : String) (depth : Nat) : List Statement → String
  | [] => ""
  | statement :: rest =>
      "\n" ++ pad indent (depth + 1) ++ bare indent (depth + 1) statement ++
        beneath indent depth rest

/-- The first of some statements without padding and line end. -/
def first (indent : String) (depth : Nat) : List Statement → String
  | [] => ""
  | statement :: _ => bare indent depth statement

end

end Statement
end NwScript
