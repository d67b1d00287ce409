import NwScript.Script.Expression

/-!
# A reader of source text

A reader cuts source text into tokens, each as long as possible, and then reads the tokens by binding
strength.  Member access binds tightest, then steps and the operators before an operand, then the
operators between two operands, which group to the left, and an assignment binds most weakly and groups
to the right.  The reader knows nothing of how expressions are printed.
-/

namespace NwScript

/-- A token of source text. -/
inductive Token where
  /-- A name. -/
  | name (text : String)
  /-- A number without sign. -/
  | number (value : Nat)
  /-- A string literal. -/
  | string (value : String)
  /-- An operator or a punctuation mark. -/
  | symbol (text : String)
  deriving DecidableEq, Repr

/-- An operator between two operands. -/
inductive Operator where
  /-- One that evaluates both. -/
  | binary (op : BinaryOp)
  /-- One that may skip the right one. -/
  | logical (op : LogicalOp)
  deriving DecidableEq, Repr

/-- The expression that an operator makes of two operands. -/
def Operator.apply : Operator → Expression → Expression → Expression
  | .binary op => .binary op
  | .logical op => .logical op

namespace Reader

/-! ## Tokens -/

/-- A character that begins a name. -/
def isNameStart (character : Char) : Bool :=
  character.isAlpha || character = '_'

/-- A character of a name. -/
def isNamePart (character : Char) : Bool :=
  isNameStart character || character.isDigit

/-- The operators and punctuation marks, longer ones before shorter ones. -/
def symbols : List String :=
  [">>>=", ">>>", ">>=", "<<=", "==", "!=", ">=", "<=", ">>", "<<", "&&", "||", "++", "--", "+=",
    "-=", "*=", "/=", "%=", "&=", "|=", "^=", "::", "|", "^", "&", ">", "<", "+", "-", "*", "/", "%",
    "!", "~", "=", ".", ",", "(", ")", "[", "]", "?", ":", ";"]

/-- The characters of a string literal up to its closing quote, and the text behind it. -/
def quoted? : List Char → Option (List Char × List Char)
  | [] => none
  | '"' :: rest => some ([], rest)
  | '\\' :: 'n' :: rest => (quoted? rest).map fun read => ('\n' :: read.1, read.2)
  | '\\' :: 't' :: rest => (quoted? rest).map fun read => ('\t' :: read.1, read.2)
  | '\\' :: character :: rest => (quoted? rest).map fun read => (character :: read.1, read.2)
  | character :: rest => (quoted? rest).map fun read => (character :: read.1, read.2)

/-- The longest token at the start of a text, and the text behind it. -/
def token? : List Char → Option (Token × List Char)
  | [] => none
  | '"' :: rest => (quoted? rest).map fun read => (.string (String.ofList read.1), read.2)
  | character :: rest =>
      if isNameStart character then
        some (.name (String.ofList (character :: rest.takeWhile isNamePart)),
          rest.dropWhile isNamePart)
      else if character.isDigit then
        some (.number (Nat.ofDigitChars 10 (character :: rest.takeWhile Char.isDigit) 0),
          rest.dropWhile Char.isDigit)
      else
        (symbols.find? fun symbol => symbol.toList.isPrefixOf (character :: rest)).map fun symbol =>
          (.symbol symbol, (character :: rest).drop symbol.length)

/-- The tokens of a text, between which there may be blanks.  Every token uses up some text. -/
def tokens? (text : List Char) : Option (List Token) :=
  match text with
  | [] => some []
  | ' ' :: rest => tokens? rest
  | text =>
      match token? text with
      | some (token, rest) =>
          if rest.length < text.length then (tokens? rest).map (token :: ·) else none
      | none => none
termination_by text.length

/-! ## Expressions -/

/-- The operators between two operands and how tightly they bind, from one on. -/
def operator? : String → Option (Operator × Nat)
  | "||" => some (.logical .or, 1)
  | "&&" => some (.logical .and, 2)
  | "|" => some (.binary .bitOr, 3)
  | "^" => some (.binary .bitXor, 4)
  | "&" => some (.binary .bitAnd, 5)
  | "==" => some (.binary .equal, 6)
  | "!=" => some (.binary .notEqual, 6)
  | ">=" => some (.binary .greaterEqual, 7)
  | ">" => some (.binary .greater, 7)
  | "<" => some (.binary .less, 7)
  | "<=" => some (.binary .lessEqual, 7)
  | "<<" => some (.binary .shiftLeft, 8)
  | ">>" => some (.binary .shiftRight, 8)
  | ">>>" => some (.binary .unsignedShiftRight, 8)
  | "+" => some (.binary .add, 9)
  | "-" => some (.binary .sub, 9)
  | "*" => some (.binary .mul, 10)
  | "/" => some (.binary .div, 10)
  | "%" => some (.binary .mod, 10)
  | _ => none

/-- An operator before an operand, and what stands behind it. -/
def before? : List Token → Option ((Expression → Expression) × List Token)
  | .symbol "-" :: rest => some (.unary .negate, rest)
  | .symbol "!" :: rest => some (.unary .not, rest)
  | .symbol "~" :: rest => some (.unary .complement, rest)
  | .symbol "++" :: rest => some (.step .increment true, rest)
  | .symbol "--" :: rest => some (.step .decrement true, rest)
  | _ => none

/-- Members taken of an operand, and a step behind it. -/
def behind (base : Expression) : List Token → Expression × List Token
  | .symbol "." :: .name field :: rest => behind (.member base field) rest
  | .symbol "++" :: rest => (.step .increment false base, rest)
  | .symbol "--" :: rest => (.step .decrement false base, rest)
  | rest => (base, rest)

mutual

/-- An expression: an assignment, or operands and operators between them. -/
def expression? (tokens : List Token) : Option (Expression × List Token) :=
  match operation? 1 tokens with
  | some (target, .symbol "=" :: rest) =>
      if rest.length < tokens.length then
        (expression? rest).map fun read => (.assign target read.1, read.2)
      else none
  | read => read
termination_by (tokens.length, 3)

/-- Operands and operators between them that bind with some strength at least. -/
def operation? (strength : Nat) (tokens : List Token) : Option (Expression × List Token) :=
  match operand? tokens with
  | some (left, rest) =>
      if rest.length < tokens.length then continue? strength left rest else none
  | none => none
termination_by (tokens.length, 2)

/-- Operators behind a left operand that bind with some strength at least. -/
def continue? (strength : Nat) (left : Expression) (tokens : List Token) :
    Option (Expression × List Token) :=
  match tokens with
  | .symbol symbol :: rest =>
      match operator? symbol with
      | some (op, own) =>
          if strength ≤ own then
            match operation? (own + 1) rest with
            | some (right, later) =>
                if later.length < rest.length then continue? strength (op.apply left right) later
                else none
            | none => none
          else some (left, tokens)
      | none => some (left, tokens)
  | _ => some (left, tokens)
termination_by (tokens.length, 0)

/-- An operand with what stands before and behind it. -/
def operand? (tokens : List Token) : Option (Expression × List Token) :=
  match before? tokens with
  | some (apply, rest) =>
      if rest.length < tokens.length then
        (operand? rest).map fun read => (apply read.1, read.2)
      else none
  | none => (primary? tokens).map fun read => behind read.1 read.2
termination_by (tokens.length, 1)

/-- A name, a literal, a call, a vector or an expression in parentheses. -/
def primary? (tokens : List Token) : Option (Expression × List Token) :=
  match tokens with
  | .name name :: .symbol "(" :: .symbol ")" :: rest => some (.call name [], rest)
  | .name name :: .symbol "(" :: rest =>
      match list? rest with
      | some (arguments, .symbol ")" :: later) => some (.call name arguments, later)
      | _ => none
  | .name name :: rest => some (.word name, rest)
  | .number value :: rest => some (.literal (.int value), rest)
  | .string value :: rest => some (.literal (.string value), rest)
  | .symbol "(" :: rest =>
      match expression? rest with
      | some (value, .symbol ")" :: later) => some (value, later)
      | _ => none
  | .symbol "[" :: rest =>
      match list? rest with
      | some ([x, y, z], .symbol "]" :: later) => some (.vector x y z, later)
      | _ => none
  | _ => none
termination_by (tokens.length, 0)

/-- Expressions divided by commas. -/
def list? (tokens : List Token) : Option (List Expression × List Token) :=
  match expression? tokens with
  | some (first, .symbol "," :: rest) =>
      if rest.length < tokens.length then (list? rest).map fun read => (first :: read.1, read.2)
      else none
  | some (first, rest) => some ([first], rest)
  | none => none
termination_by (tokens.length, 4)

end

/-- The expression that a text spells. -/
def read? (text : String) : Option Expression :=
  match (tokens? text.toList).bind expression? with
  | some (value, []) => some value
  | _ => none

end Reader
end NwScript
