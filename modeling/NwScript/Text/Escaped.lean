import NwScript.Text.Unprintable

/-!
# Strings in listings

A listing shows a string between double quotes with every character visible: the usual control
characters, quotes and backslashes by two characters, and any other character without a printed
form by its hexadecimal number.
-/

namespace NwScript
namespace Escaped

/-- The listing form of one character. -/
def encodeChar (character : Char) : String :=
  match character with
  | '\x00' => "\\0"
  | '\t' => "\\t"
  | '\r' => "\\r"
  | '\n' => "\\n"
  | '\\' => "\\\\"
  | '"' => "\\\""
  | _ =>
      if isUnprintable character then
        "\\u\x7b" ++ String.ofList (Nat.toDigits 16 character.toNat) ++ "\x7d"
      else
        String.singleton character

/-- The listing form of a string. -/
def quote (value : String) : String :=
  "\"" ++ String.join (value.toList.map encodeChar) ++ "\""

end Escaped
end NwScript
