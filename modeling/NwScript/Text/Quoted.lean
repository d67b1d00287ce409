/-!
# String literals in source text

A string literal stands between double quotes.  Inside it a quote, a backslash, a line feed and a
tab are written as two characters, and every other character stands for itself.
-/

namespace NwScript
namespace Quoted

/-- The characters that spell one character of a literal. -/
def encodeChar : Char → List Char
  | '"' => ['\\', '"']
  | '\\' => ['\\', '\\']
  | '\n' => ['\\', 'n']
  | '\t' => ['\\', 't']
  | character => [character]

/-- The characters between the quotes of a literal. -/
def encode (characters : List Char) : List Char :=
  characters.flatMap encodeChar

@[simp]
theorem encode_nil : encode [] = [] := rfl

@[simp]
theorem encode_cons (character : Char) (characters : List Char) :
    encode (character :: characters) = encodeChar character ++ encode characters := rfl

/-- The source spelling of a string. -/
def literal (value : String) : String :=
  "\"" ++ String.ofList (encode value.toList) ++ "\""

end Quoted
end NwScript
