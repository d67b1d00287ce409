import Mathlib.Data.List.DropRight
import NwScript.Proofs.PrintedTokens

/-!
# String literals read back

A quote ends a literal unless a backslash escapes it, and a backslash escapes what follows unless it is
escaped itself.  So the backslashes in front of a quote decide, and whether there is an odd number of them.
Every character of a string is written with its own backslashes, an even number at its end, so that no
character changes what the next one means.
-/

namespace NwScript
namespace Quoted

/-- The character that a letter behind a backslash stands for. -/
def escaped? : Char → Option Char
  | '"' => some '"'
  | '\\' => some '\\'
  | 'n' => some '\n'
  | 't' => some '\t'
  | _ => none

/-- A character that does not stand for itself in a literal. -/
def isSpecial (character : Char) : Bool :=
  character ∈ ['"', '\\', '\n', '\t']

/-- The characters that are spelled between two quotes.  Nothing is spelled where a quote, a line feed or a
tab stands by itself, or a backslash in front of anything but the four letters. -/
def decode? : List Char → Option (List Char)
  | [] => some []
  | '\\' :: letter :: rest =>
      (escaped? letter).bind fun character => (decode? rest).map (character :: ·)
  | character :: rest =>
      if isSpecial character then none else (decode? rest).map (character :: ·)

/-- A text ends in an odd number of backslashes, the last of which escapes what comes next. -/
def EscapesNext (front : List Char) : Prop :=
  (front.rtakeWhile (· = '\\')).length % 2 = 1

instance (front : List Char) : Decidable (EscapesNext front) :=
  inferInstanceAs (Decidable (_ = _))

section Decoding

variable {character : Char} {characters inner : List Char}

theorem isSpecial_iff : isSpecial character = true ↔
    character = '"' ∨ character = '\\' ∨ character = '\n' ∨ character = '\t' := by
  simp [isSpecial]

theorem escaped?_eq_some {letter : Char} (stands : escaped? letter = some character) :
    encodeChar character = ['\\', letter] := by
  unfold escaped? at stands
  split at stands <;> cases stands <;> rfl

theorem encodeChar_eq_singleton (plain : isSpecial character = false) :
    encodeChar character = [character] := by
  unfold encodeChar
  split
  case h_5 => rfl
  all_goals cases plain

/-- One character is read from what spells it, whatever follows. -/
theorem decode?_encodeChar (character : Char) (rest : List Char) :
    decode? (encodeChar character ++ rest) = (decode? rest).map (character :: ·) := by
  cases special : isSpecial character with
  | false =>
      rw [encodeChar_eq_singleton special, List.singleton_append]
      rw [decode?, special]
      · rfl
      · rintro _ _ rfl
        cases special
  | true =>
      rcases isSpecial_iff.mp special with rfl | rfl | rfl | rfl <;> rfl

theorem decode?_encode (characters : List Char) : decode? (encode characters) = some characters := by
  induction characters with
  | nil => rfl
  | cons character characters induction => rw [encode_cons, decode?_encodeChar, induction, Option.map_some]

/-- Nothing but the spelling of a string is read as it. -/
theorem eq_encode_of_decode? (read : decode? inner = some characters) : inner = encode characters := by
  fun_induction decode? inner generalizing characters with
  | case1 =>
      cases read
      rfl
  | case2 letter rest induction =>
      obtain ⟨character, stands, read⟩ := Option.bind_eq_some_iff.mp read
      obtain ⟨others, later, rfl⟩ := Option.map_eq_some_iff.mp read
      rw [encode_cons, escaped?_eq_some stands, induction later]
      rfl
  | case3 => cases read
  | case4 character rest _ plain induction =>
      obtain ⟨others, later, rfl⟩ := Option.map_eq_some_iff.mp read
      rw [encode_cons, encodeChar_eq_singleton (Bool.eq_false_iff.mpr plain), induction later]
      rfl

end Decoding

section Escapes

variable {front behind : List Char} {character : Char}

theorem not_escapesNext_nil : ¬EscapesNext [] := by
  decide

theorem escapesNext_concat_backslash : EscapesNext (front ++ ['\\']) ↔ ¬EscapesNext front := by
  rw [EscapesNext, EscapesNext, List.rtakeWhile_concat_pos _ _ _ (by decide), List.length_append,
    List.length_singleton]
  omega

theorem not_escapesNext_concat (other : character ≠ '\\') : ¬EscapesNext (front ++ [character]) := by
  rw [EscapesNext, List.rtakeWhile_concat_neg _ _ _ (by simpa using other)]
  decide

/-- What a text escapes does not depend on what stands before it, if that escapes nothing. -/
theorem escapesNext_append (settled : ¬EscapesNext front) (behind : List Char) :
    EscapesNext (front ++ behind) ↔ EscapesNext behind := by
  induction behind using List.reverseRecOn with
  | nil =>
      rw [List.append_nil]
      exact iff_of_false settled not_escapesNext_nil
  | append_singleton behind last induction =>
      rw [← List.append_assoc]
      by_cases backslash : last = '\\'
      · rw [backslash, escapesNext_concat_backslash, escapesNext_concat_backslash, induction]
      · exact iff_of_false (not_escapesNext_concat backslash) (not_escapesNext_concat backslash)

theorem not_escapesNext_encodeChar (character : Char) : ¬EscapesNext (encodeChar character) := by
  cases special : isSpecial character with
  | false =>
      rw [encodeChar_eq_singleton special]
      refine @not_escapesNext_concat [] _ ?_
      rintro rfl
      cases special
  | true =>
      rcases isSpecial_iff.mp special with rfl | rfl | rfl | rfl <;> decide

/-- The quote behind a spelled string is not escaped. -/
theorem not_escapesNext_encode (characters : List Char) : ¬EscapesNext (encode characters) := by
  induction characters with
  | nil => exact not_escapesNext_nil
  | cons character characters induction =>
      rw [encode_cons, escapesNext_append (not_escapesNext_encodeChar character)]
      exact induction

/-- A quote is written behind its own backslash, and every other character without a quote. -/
theorem encodeChar_eq_append_quote (written : encodeChar character = front ++ '"' :: behind) :
    front = ['\\'] ∧ behind = [] := by
  cases special : isSpecial character with
  | false =>
      rw [encodeChar_eq_singleton special, List.singleton_eq_append_iff] at written
      rcases written with ⟨rfl, same⟩ | ⟨-, absent⟩
      · obtain ⟨rfl, -⟩ := List.cons.inj same
        cases special
      · cases absent
  | true =>
      obtain ⟨letter, two⟩ : ∃ letter, encodeChar character = ['\\', letter] := by
        rcases isSpecial_iff.mp special with rfl | rfl | rfl | rfl <;> exact ⟨_, rfl⟩
      rw [two, List.cons_eq_append_iff] at written
      rcases written with ⟨rfl, first⟩ | ⟨later, rfl, last⟩
      · exact absurd (List.cons.inj first).1 (by decide)
      · rcases List.singleton_eq_append_iff.mp last with ⟨rfl, same⟩ | ⟨-, absent⟩
        · exact ⟨rfl, (List.cons.inj same).2⟩
        · cases absent

/-- Every quote in a spelled string is escaped. -/
theorem escapesNext_of_encode_eq {characters : List Char}
    (written : encode characters = front ++ '"' :: behind) : EscapesNext front := by
  induction characters generalizing front with
  | nil => simp at written
  | cons character characters induction =>
      rw [encode_cons, List.append_eq_append_iff] at written
      rcases written with ⟨later, rfl, written⟩ | ⟨rest, written, there⟩
      · rw [escapesNext_append (not_escapesNext_encodeChar character)]
        exact induction written
      · cases rest with
        | nil =>
            -- the quote would be the first character behind, where nothing escapes it
            exact absurd (@induction [] there.symm) not_escapesNext_nil
        | cons quote rest =>
            obtain ⟨rfl, -⟩ := List.cons.inj there
            obtain ⟨rfl, -⟩ := encodeChar_eq_append_quote written
            decide

theorem not_mem_encode (characters : List Char) :
    '\n' ∉ encode characters ∧ '\t' ∉ encode characters := by
  induction characters with
  | nil => exact ⟨List.not_mem_nil, List.not_mem_nil⟩
  | cons character characters induction =>
      have here : '\n' ∉ encodeChar character ∧ '\t' ∉ encodeChar character := by
        cases special : isSpecial character with
        | false =>
            rw [encodeChar_eq_singleton special, List.mem_singleton, List.mem_singleton]
            constructor <;> (rintro rfl; cases special)
        | true => rcases isSpecial_iff.mp special with rfl | rfl | rfl | rfl <;> decide
      rw [encode_cons, List.mem_append, List.mem_append]
      exact ⟨not_or.mpr ⟨here.1, induction.1⟩, not_or.mpr ⟨here.2, induction.2⟩⟩

end Escapes

/-- Characters between two quotes spell a string on one line and as a whole. -/
structure Spells (inner : List Char) (value : String) : Prop where
  /-- No quote among them ends the literal. -/
  quotes : ∀ front behind, inner = front ++ '"' :: behind → EscapesNext front
  /-- The quote behind them does. -/
  closed : ¬EscapesNext inner
  /-- No line feed stands by itself. -/
  lineFeed : '\n' ∉ inner
  /-- No tab stands by itself. -/
  tab : '\t' ∉ inner
  /-- They are read as the string. -/
  decoded : decode? inner = some value.toList
  /-- Nothing else is. -/
  unique : ∀ other, decode? other = some value.toList → other = inner

theorem spells_encode (value : String) : Spells (encode value.toList) value where
  quotes _ _ := escapesNext_of_encode_eq
  closed := not_escapesNext_encode value.toList
  lineFeed := (not_mem_encode value.toList).1
  tab := (not_mem_encode value.toList).2
  decoded := decode?_encode value.toList
  unique _ := eq_encode_of_decode?

/-- Whatever follows two literals, they are the same if the texts are. -/
theorem literal_append_inj {value other rest later : String} :
    literal value ++ rest = literal other ++ later ↔ value = other ∧ rest = later := by
  constructor
  · intro same
    have first := Reader.token?_string value rest.toList
    rw [← String.toList_append, same, String.toList_append, Reader.token?_string] at first
    obtain ⟨token, behind⟩ := Prod.mk.inj (Option.some.inj first)
    exact ⟨(Token.string.inj token).symm, (String.toList_inj.mp behind).symm⟩
  · rintro ⟨rfl, rfl⟩
    rfl

end Quoted

/-- A string is written between quotes such that no quote in between is unescaped and no line feed or tab
stands by itself, and what is in between is read as the string, as nothing else is.  Whatever text follows,
a reader takes the literal to end where it does, and no other string begins such a text. -/
theorem Constant.string_text_reads_back (value : String) :
    (∃ inner, (Constant.string value).sourceText.toList = '"' :: inner ++ ['"'] ∧
        Quoted.Spells inner value) ∧
      (∀ rest, Reader.token? ((Constant.string value).sourceText.toList ++ rest) =
        some (.string value, rest)) ∧
      ∀ other rest later, (Constant.string value).sourceText ++ rest =
        (Constant.string other).sourceText ++ later ↔ value = other ∧ rest = later := by
  refine ⟨⟨Quoted.encode value.toList, ?_, Quoted.spells_encode value⟩, ?_, ?_⟩
  · simp [Constant.sourceText, Quoted.literal]
  · exact Reader.token?_string value
  · exact fun other rest later => Quoted.literal_append_inj

/-- Backslashes in front of a quote and of a letter are doubled, and the quote has its own. -/
example : (Constant.string "\\\"\\n").sourceText = "\"\\\\\\\"\\\\n\"" := by
  decide

end NwScript
