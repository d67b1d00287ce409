import Mathlib.Data.List.Basic
import NwScript.Proofs.Regrouping

/-!
# Tokens of printed expressions

The text of an expression has the tokens that it was written with.  No two of them run together: names
and numbers end before a mark, operators between operands stand between blanks, and an operator before
an operand that begins with it is kept apart by a parenthesis.
-/

namespace NwScript

namespace Reader

/-! ## Single tokens -/

/-- A text that can stand behind a name or a number. -/
def EndsName (rest : List Char) : Prop :=
  ∀ character ∈ rest.head?, isNamePart character = false

/-- A name: it begins like one and goes on like one. -/
def IsName (name : String) : Prop :=
  ∃ first rest, name.toList = first :: rest ∧ isNameStart first ∧ ∀ part ∈ rest, isNamePart part

/-- The characters with which a symbol begins a longer one. -/
def continuations (symbol : String) : List Char :=
  symbols.filterMap fun longer =>
    if symbol.toList.isPrefixOf longer.toList then longer.toList[symbol.toList.length]? else none

theorem endsName_of_head {first : Char} {rest : List Char} (ends : isNamePart first = false) :
    EndsName (first :: rest) := by
  intro next here
  cases here
  exact ends

theorem takeWhile_append_of_ends {test : Char → Bool} {word rest : List Char}
    (all : ∀ part ∈ word, test part) (ends : ∀ next ∈ rest.head?, test next = false) :
    (word ++ rest).takeWhile test = word ∧ (word ++ rest).dropWhile test = rest := by
  have stops : rest.takeWhile test = [] ∧ rest.dropWhile test = rest := by
    cases rest with
    | nil => exact ⟨rfl, rfl⟩
    | cons next later =>
        have fails := ends next rfl
        exact ⟨by rw [List.takeWhile_cons_of_neg (by simp [fails])],
          by rw [List.dropWhile_cons_of_neg (by simp [fails])]⟩
  constructor
  · rw [List.takeWhile_append_of_pos all, stops.1, List.append_nil]
  · rw [List.dropWhile_append_of_pos all, stops.2]

theorem ne_of_isNameStart {character : Char} (starts : isNameStart character) :
    character ≠ '"' ∧ character ≠ ' ' := by
  constructor <;> rintro rfl <;> cases starts

theorem token?_name {name : String} (named : IsName name) {rest : List Char}
    (ends : EndsName rest) : token? (name.toList ++ rest) = some (.name name, rest) := by
  obtain ⟨first, parts, spelled, starts, goes_on⟩ := named
  obtain ⟨taken, dropped⟩ := takeWhile_append_of_ends goes_on ends
  rw [spelled, List.cons_append]
  unfold token?
  split
  · contradiction
  · rename_i same
    obtain ⟨rfl, _⟩ := List.cons.inj same
    exact absurd rfl (ne_of_isNameStart starts).1
  · rename_i character later _ same
    obtain ⟨rfl, rfl⟩ := List.cons.inj same
    rw [if_pos starts, taken, dropped, ← spelled, String.ofList_toList]

theorem not_isNameStart_of_isDigit {character : Char} (digit : character.isDigit) :
    isNameStart character = false := by
  simp only [Char.isDigit, Bool.and_eq_true, decide_eq_true_eq, UInt32.le_iff_toNat_le,
    ge_iff_le] at digit
  rw [← Bool.not_eq_true]
  intro starts
  change ((decide (character.val ≥ 'A'.val ∧ character.val ≤ 'Z'.val) ||
    (decide (character.val ≥ 'a'.val) && decide (character.val ≤ 'z'.val))) ||
      decide (character = '_')) = true at starts
  simp only [Bool.or_eq_true, Bool.and_eq_true, decide_eq_true_eq, UInt32.le_iff_toNat_le,
    ge_iff_le] at starts
  have upper : 'A'.val.toNat = 65 := rfl
  have lower : 'a'.val.toNat = 97 := rfl
  have last : '9'.val.toNat = 57 := rfl
  rcases starts with (above | above) | rfl
  · omega
  · omega
  · simp at digit

theorem token?_number (value : Nat) {rest : List Char} (ends : EndsName rest) :
    token? (Nat.toDigits 10 value ++ rest) = some (.number value, rest) := by
  have digits : ∀ digit ∈ Nat.toDigits 10 value, digit.isDigit :=
    fun digit listed => Nat.isDigit_of_mem_toDigits (by decide) (by decide) listed
  have stops : ∀ next ∈ rest.head?, next.isDigit = false := by
    intro next here
    have part := ends next here
    simp only [isNamePart, Bool.or_eq_false_iff] at part
    exact part.2
  have number := Nat.ofDigitChars_ten_toDigits (n := value)
  cases spelled : Nat.toDigits 10 value with
  | nil => exact absurd spelled Nat.toDigits_ne_nil
  | cons first parts =>
      rw [spelled] at digits number
      have starts := digits first List.mem_cons_self
      obtain ⟨taken, dropped⟩ := takeWhile_append_of_ends
        (fun part listed => digits part (List.mem_cons_of_mem _ listed)) stops
      rw [List.cons_append]
      unfold token?
      split
      · contradiction
      · rename_i same
        obtain ⟨rfl, _⟩ := List.cons.inj same
        cases starts
      · rename_i character later _ same
        obtain ⟨rfl, rfl⟩ := List.cons.inj same
        rw [if_neg (by simp [not_isNameStart_of_isDigit starts]), if_pos starts, taken, dropped,
          number]

theorem quoted?_encode (characters rest : List Char) :
    quoted? (Quoted.encode characters ++ '"' :: rest) = some (characters, rest) := by
  induction characters with
  | nil => rfl
  | cons character characters induction =>
      rw [Quoted.encode_cons, List.append_assoc]
      unfold Quoted.encodeChar
      split
      case h_5 quote slash _ _ =>
        rw [List.singleton_append, quoted?, induction]
        · rfl
        · exact quote
        · exact fun _ backslash _ => slash backslash
        · exact fun _ backslash _ => slash backslash
        · exact fun _ _ backslash _ => slash backslash
      all_goals simp [quoted?, induction]

theorem token?_string (value : String) (rest : List Char) :
    token? ((Quoted.literal value).toList ++ rest) = some (.string value, rest) := by
  have spelled : (Quoted.literal value).toList ++ rest =
      '"' :: (Quoted.encode value.toList ++ '"' :: rest) := by
    simp [Quoted.literal]
  rw [spelled, token?, quoted?_encode, Option.map_some, String.ofList_toList]

theorem symbols_ordered : symbols.Pairwise fun first second =>
    second.toList.length ≤ first.toList.length ∧ first ≠ second := by
  decide +kernel

/-- A character that begins neither a name nor a number, a string or a blank. -/
def isMark (character : Char) : Bool :=
  character ≠ '"' && character ≠ ' ' && !isNameStart character && !character.isDigit

theorem all_isMark :
    (symbols.all fun symbol => (symbol.toList.head?.map isMark).getD false) = true := by
  decide

theorem head_of_symbol {symbol : String} (listed : symbol ∈ symbols) :
    ∃ first parts, symbol.toList = first :: parts ∧ first ≠ '"' ∧ first ≠ ' ' ∧
      isNameStart first = false ∧ first.isDigit = false := by
  have marked := List.all_eq_true.mp all_isMark symbol listed
  cases spelled : symbol.toList with
  | nil =>
      rw [spelled] at marked
      cases marked
  | cons first parts =>
      rw [spelled] at marked
      have mark : isMark first = true := marked
      simp only [isMark, Bool.and_eq_true, decide_eq_true_eq, Bool.not_eq_true'] at mark
      obtain ⟨⟨⟨quote, blank⟩, starts⟩, digit⟩ := mark
      exact ⟨first, parts, rfl, quote, blank, starts, digit⟩

/-- A symbol that does not run together with what follows is the longest one there. -/
theorem find?_symbol {symbol : String} (listed : symbol ∈ symbols) {rest : List Char}
    (apart : ∀ next ∈ rest.head?, next ∉ continuations symbol) :
    (symbols.find? fun other => other.toList.isPrefixOf (symbol.toList ++ rest)) = some symbol := by
  obtain ⟨before, after, split⟩ := List.append_of_mem listed
  refine List.find?_eq_some_iff_append.mpr ⟨by simp, before, after, split, ?_⟩
  intro longer earlier
  have ordered := symbols_ordered
  rw [split, List.pairwise_append] at ordered
  obtain ⟨length, other⟩ := ordered.2.2 longer earlier symbol List.mem_cons_self
  have known : longer ∈ symbols := by
    rw [split]
    exact List.mem_append_left _ earlier
  by_contra fits
  rw [Bool.not_eq_true, Bool.not_eq_false', List.isPrefixOf_iff_prefix] at fits
  obtain ⟨more, extended⟩ :=
    List.prefix_of_prefix_length_le (List.prefix_append symbol.toList rest) fits length
  cases more with
  | nil =>
      rw [List.append_nil] at extended
      exact other (String.toList_inj.mp extended).symm
  | cons next more =>
      rw [← extended, List.prefix_append_right_inj] at fits
      obtain ⟨later, rfl⟩ := fits
      refine apart next rfl (List.mem_filterMap.mpr ⟨longer, known, ?_⟩)
      rw [← extended, if_pos (by simp)]
      simp

theorem token?_symbol {symbol : String} (listed : symbol ∈ symbols) {rest : List Char}
    (apart : ∀ next ∈ rest.head?, next ∉ continuations symbol) :
    token? (symbol.toList ++ rest) = some (.symbol symbol, rest) := by
  have longest := find?_symbol listed apart
  have dropped : (symbol.toList ++ rest).drop symbol.length = rest := by
    rw [← String.length_toList, List.drop_left]
  obtain ⟨first, parts, spelled, quote, _, starts, digit⟩ := head_of_symbol listed
  rw [spelled] at longest dropped ⊢
  rw [List.cons_append] at longest dropped ⊢
  unfold token?
  split
  · contradiction
  · rename_i same
    exact absurd (List.cons.inj same).1 quote
  · rename_i character later _ same
    obtain ⟨rfl, rfl⟩ := List.cons.inj same
    rw [if_neg (by simp [starts]), if_neg (by simp [digit]), longest, Option.map_some, dropped]

/-! ## Texts and their tokens -/

/-- A text has some tokens, whatever stands behind it and ends a name. -/
def Spells (text : List Char) (tokens : List Token) : Prop :=
  ∀ rest more, EndsName rest → tokens? rest = some more → tokens? (text ++ rest) = some (tokens ++ more)

variable {text other : List Char} {tokens others : List Token}

theorem tokens?_blank (rest : List Char) : tokens? (' ' :: rest) = tokens? rest := by
  rw [tokens?]

theorem tokens?_token {first : Char} {parts rest : List Char} {token : Token} {more : List Token}
    (visible : first ≠ ' ') (found : token? (first :: parts ++ rest) = some (token, rest))
    (behind : tokens? rest = some more) : tokens? (first :: parts ++ rest) = some (token :: more) := by
  have shorter : rest.length < (first :: parts ++ rest).length := by
    rw [List.length_append, List.length_cons]
    omega
  rw [List.cons_append] at found shorter ⊢
  rw [tokens?]
  · rw [found]
    simp only [if_pos shorter, behind, Option.map_some]
  · exact List.cons_ne_nil _ _
  · exact fun _ same => visible (List.cons.inj same).1

theorem spells_nil : Spells [] [] :=
  fun _ _ _ behind => behind

theorem EndsName.append (ends : EndsName text) (nonempty : text ≠ []) (rest : List Char) :
    EndsName (text ++ rest) := by
  cases text with
  | nil => exact absurd rfl nonempty
  | cons first parts => exact ends

theorem Spells.append (first : Spells text tokens) (second : Spells other others)
    (ends : EndsName other) (nonempty : other ≠ []) : Spells (text ++ other) (tokens ++ others) := by
  intro rest more stops behind
  rw [List.append_assoc, List.append_assoc]
  exact first _ _ (ends.append nonempty rest) (second rest more stops behind)

theorem Spells.blank (spells : Spells text tokens) : Spells (' ' :: text) tokens := by
  intro rest more stops behind
  rw [List.cons_append, tokens?_blank]
  exact spells rest more stops behind

theorem spells_name {name : String} (named : IsName name) : Spells name.toList [.name name] := by
  intro rest more stops behind
  have found := token?_name named stops
  obtain ⟨first, parts, spelled, starts, _⟩ := named
  rw [spelled] at found ⊢
  exact tokens?_token (ne_of_isNameStart starts).2 found behind

theorem spells_number (value : Nat) : Spells (Nat.toDigits 10 value) [.number value] := by
  intro rest more stops behind
  have found := token?_number value stops
  cases spelled : Nat.toDigits 10 value with
  | nil => exact absurd spelled Nat.toDigits_ne_nil
  | cons first parts =>
      have digit : first.isDigit := by
        refine Nat.isDigit_of_mem_toDigits (b := 10) (n := value) (by decide) (by decide) ?_
        rw [spelled]
        exact List.mem_cons_self
      rw [spelled] at found
      refine tokens?_token ?_ found behind
      rintro rfl
      cases digit

theorem spells_string (value : String) : Spells (Quoted.literal value).toList [.string value] := by
  intro rest more _ behind
  have found := token?_string value rest
  have spelled : (Quoted.literal value).toList =
      '"' :: (Quoted.encode value.toList ++ ['"']) := by
    simp [Quoted.literal]
  rw [spelled] at found ⊢
  exact tokens?_token (by decide) found behind

theorem tokens?_symbol {symbol : String} (listed : symbol ∈ symbols) {rest : List Char}
    (apart : ∀ next ∈ rest.head?, next ∉ continuations symbol) {more : List Token}
    (behind : tokens? rest = some more) :
    tokens? (symbol.toList ++ rest) = some (.symbol symbol :: more) := by
  have found := token?_symbol listed apart
  obtain ⟨first, parts, spelled, _, visible, _⟩ := head_of_symbol listed
  rw [spelled] at found ⊢
  exact tokens?_token visible found behind

/-- A symbol before a text that it does not run together with. -/
theorem Spells.symbol (spells : Spells text tokens) (symbol : String) (listed : symbol ∈ symbols)
    (apart : ∀ next ∈ text.head?, next ∉ continuations symbol) (nonempty : text ≠ []) :
    Spells (symbol.toList ++ text) (.symbol symbol :: tokens) := by
  intro rest more stops behind
  rw [List.append_assoc]
  refine tokens?_symbol listed (fun next here => apart next ?_) (spells rest more stops behind)
  cases text with
  | nil => exact absurd rfl nonempty
  | cons first parts => exact here

/-- A symbol from which no other one goes on stands before any text. -/
theorem Spells.mark (spells : Spells text tokens) (symbol : String) (listed : symbol ∈ symbols)
    (longest : continuations symbol = []) :
    Spells (symbol.toList ++ text) (.symbol symbol :: tokens) := by
  intro rest more stops behind
  rw [List.append_assoc]
  refine tokens?_symbol listed (fun next _ => ?_) (spells rest more stops behind)
  rw [longest]
  exact List.not_mem_nil

/-- Tokens in parentheses if they are needed. -/
def wrap (needed : Bool) (tokens : List Token) : List Token :=
  if needed then .symbol "(" :: (tokens ++ [.symbol ")"]) else tokens

theorem Spells.enclose {inner : String} (spells : Spells inner.toList tokens) (needed : Bool) :
    Spells (Expression.enclose needed inner).toList (wrap needed tokens) := by
  cases needed with
  | false => exact spells
  | true =>
      have closed := spells.append (spells_nil.mark ")" (by decide) (by decide))
        (endsName_of_head rfl) (List.cons_ne_nil _ _)
      have opened := closed.mark "(" (by decide) (by decide)
      have spelled : (Expression.enclose true inner).toList =
          "(".toList ++ (inner.toList ++ (")".toList ++ [])) := by
        simp [Expression.enclose]
      rw [spelled]
      exact opened

/-- An operator between blanks. -/
theorem Spells.operation {left right : String} (first : Spells left.toList tokens)
    (second : Spells right.toList others) (symbol : String) (listed : symbol ∈ symbols)
    (apart : ' ' ∉ continuations symbol) :
    Spells (left.toList ++ ' ' :: (symbol.toList ++ ' ' :: right.toList))
      (tokens ++ .symbol symbol :: others) := by
  have marked := second.blank.symbol symbol listed (by simpa using apart) (List.cons_ne_nil _ _)
  exact first.append marked.blank (by intro next here; cases here; rfl) (List.cons_ne_nil _ _)

theorem toList_toString_ofNat (magnitude : Nat) :
    (toString (Int.ofNat magnitude)).toList = Nat.toDigits 10 magnitude := by
  rw [← String.toList_ofList (l := Nat.toDigits 10 magnitude), ← Nat.toString_eq_ofList_toDigits]
  rfl

theorem toList_toString_negSucc (magnitude : Nat) :
    (toString (Int.negSucc magnitude)).toList = '-' :: Nat.toDigits 10 (magnitude + 1) := by
  have spelled : '-' :: Nat.toDigits 10 (magnitude + 1) =
      "-".toList ++ Nat.toDigits 10 (magnitude + 1) := rfl
  rw [spelled, ← String.toList_ofList (l := Nat.toDigits 10 (magnitude + 1)),
    ← Nat.toString_eq_ofList_toDigits, ← String.toList_append]
  rfl

theorem isDigit_of_head {magnitude : Nat} {next : Char}
    (here : next ∈ (Nat.toDigits 10 magnitude).head?) : next.isDigit :=
  Nat.isDigit_of_mem_toDigits (by decide) (by decide) (List.mem_of_mem_head? here)

theorem spells_int (value : Int) : Spells (toString value).toList
    (if value < 0 then [.symbol "-", .number value.natAbs] else [.number value.natAbs]) := by
  cases value with
  | ofNat magnitude =>
      rw [toList_toString_ofNat, if_neg (by simp)]
      exact spells_number magnitude
  | negSucc magnitude =>
      rw [toList_toString_negSucc, if_pos (Int.negSucc_lt_zero magnitude)]
      refine (spells_number (magnitude + 1)).symbol "-" (by decide) ?_ Nat.toDigits_ne_nil
      intro next here glued
      have digit := isDigit_of_head here
      have candidates : continuations "-" = ['-', '='] := by decide
      rw [candidates] at glued
      rcases List.mem_pair.mp glued with rfl | rfl <;> cases digit

end Reader

namespace Expression

open Reader (IsName Spells wrap endsName_of_head)

/-! ## Expressions -/

/-- A variable or a member of one. -/
def IsVariable : Expression → Prop
  | word _ => True
  | member _ _ => True
  | _ => False

/-- A literal that is written with a sign. -/
def IsNegative : Expression → Prop
  | literal (.int value) => value < 0
  | _ => False

mutual

/-- An expression over integers, strings and named variables, in which only arguments are deferred and
no member is taken of a negative literal. -/
def IsPlain : Expression → Prop
  | word name => IsName name
  | literal (.int _) => True
  | literal (.string _) => True
  | literal _ => False
  | inlined _ => False
  | member base field => base.IsPlain ∧ ¬base.IsNegative ∧ IsName field
  | vector x y z => x.IsPlain ∧ y.IsPlain ∧ z.IsPlain
  | assign target value => target.IsVariable ∧ target.IsPlain ∧ value.IsPlain
  | binary _ left right => left.IsPlain ∧ right.IsPlain
  | logical _ left right => left.IsPlain ∧ right.IsPlain
  | unary _ operand => operand.IsPlain
  | step _ _ target => target.IsVariable ∧ target.IsPlain
  | call name arguments => IsName name ∧ ArePlain arguments

/-- Expressions over integers, strings and named variables. -/
def ArePlain : List Expression → Prop
  | [] => True
  | inlined value :: values => value.IsPlain ∧ ArePlain values
  | value :: values => value.IsPlain ∧ ArePlain values

end

/-- What an argument evaluates when its turn comes. -/
def argument : Expression → Expression
  | inlined value => value
  | value => value

theorem arePlain_cons {value : Expression} {values : List Expression} :
    ArePlain (value :: values) ↔ value.argument.IsPlain ∧ ArePlain values := by
  cases value <;> rfl

theorem sizeOf_argument (value : Expression) : sizeOf value.argument ≤ sizeOf value := by
  cases value <;> simp [argument]

mutual

/-- The tokens that an expression is written with. -/
def tokens : Expression → List Token
  | word name => [.name name]
  | literal (.int value) =>
      if value < 0 then [.symbol "-", .number value.natAbs] else [.number value.natAbs]
  | literal (.string value) => [.string value]
  | literal _ => []
  | inlined value => value.tokens
  | member base field =>
      wrap (base.isWeakerThan .primary) base.tokens ++ [.symbol ".", .name field]
  | vector x y z =>
      .symbol "[" ::
        (x.tokens ++ .symbol "," :: (y.tokens ++ .symbol "," :: (z.tokens ++ [.symbol "]"])))
  | assign target value => target.tokens ++ .symbol "=" :: value.tokens
  | binary op left right =>
      wrap (left.isWeakerThan op.precedence) left.tokens ++
        .symbol op.symbol :: wrap (right.isWrappedRight op) right.tokens
  | logical op left right =>
      wrap (left.isWeakerThan op.precedence) left.tokens ++
        .symbol op.symbol :: wrap (right.isWrappedRightLogical op) right.tokens
  | unary op operand =>
      .symbol op.symbol ::
        wrap (op.symbol.toList.isPrefixOf
            (enclose (operand.isWeakerThan .unary) operand.text).toList)
          (wrap (operand.isWeakerThan .unary) operand.tokens)
  | step op true target => .symbol op.symbol :: wrap (target.isWeakerThan .unary) target.tokens
  | step op false target => wrap (target.isWeakerThan .unary) target.tokens ++ [.symbol op.symbol]
  | call name arguments => .name name :: .symbol "(" :: (listTokens arguments ++ [.symbol ")"])

/-- The tokens of expressions divided by commas. -/
def listTokens : List Expression → List Token
  | [] => []
  | [value] => value.tokens
  | value :: values => value.tokens ++ .symbol "," :: listTokens values

end

theorem text_argument (value : Expression) : value.argument.text = value.text := by
  cases value <;> rfl

theorem tokens_argument (value : Expression) : value.argument.tokens = value.tokens := by
  cases value <;> rfl

theorem listTokens_cons_cons (value second : Expression) (values : List Expression) :
    listTokens (value :: second :: values) =
      value.tokens ++ .symbol "," :: listTokens (second :: values) := rfl

/-- A text begins with a character other than an equals sign. -/
def Begins (text : String) : Prop :=
  ∃ first rest, text.toList = first :: rest ∧ first ≠ '='

theorem Begins.append {text : String} (begins : Begins text) (rest : String) :
    Begins (text ++ rest) := by
  obtain ⟨first, parts, spelled, other⟩ := begins
  exact ⟨first, parts ++ rest.toList, by rw [String.toList_append, spelled]; rfl, other⟩

theorem Begins.enclose {text : String} (begins : Begins text) (needed : Bool) :
    Begins (Expression.enclose needed text) := by
  cases needed with
  | false => exact begins
  | true => exact ⟨'(', text.toList ++ [')'], by simp [Expression.enclose], by decide⟩

theorem Begins.nonempty {text : String} (begins : Begins text) : text.toList ≠ [] := by
  obtain ⟨first, rest, spelled, _⟩ := begins
  rw [spelled]
  exact List.cons_ne_nil _ _

theorem begins_name {name : String} (named : IsName name) : Begins name := by
  obtain ⟨first, rest, spelled, starts, _⟩ := named
  refine ⟨first, rest, spelled, ?_⟩
  rintro rfl
  cases starts

theorem begins_int (value : Int) : Begins (toString value) := by
  cases value with
  | ofNat magnitude =>
      cases digits : Nat.toDigits 10 magnitude with
      | nil => exact absurd digits Nat.toDigits_ne_nil
      | cons first rest =>
          refine ⟨first, rest, (Reader.toList_toString_ofNat magnitude).trans digits, ?_⟩
          have digit : first.isDigit := Reader.isDigit_of_head (by rw [digits]; rfl)
          rintro rfl
          cases digit
  | negSucc magnitude => exact ⟨'-', _, Reader.toList_toString_negSucc magnitude, by decide⟩

theorem begins_text : (value : Expression) → value.IsPlain → Begins value.text
  | word name, plain => by
      rw [text]
      exact begins_name plain
  | literal (.int value), _ => begins_int value
  | literal (.string value), _ =>
      ⟨'"', _, by simp [text, Constant.sourceText, Quoted.literal]; rfl, by decide⟩
  | member base field, ⟨plain, _⟩ => by
      rw [text]
      exact (((begins_text base plain).enclose _).append _).append _
  | vector x y z, _ => ⟨'[', _, by simp [text]; rfl, by decide⟩
  | assign target value, ⟨_, plain, _⟩ => by
      rw [text]
      exact (((begins_text target plain).enclose _).append _).append _
  | binary op left right, ⟨plain, _⟩ => by
      rw [text]
      exact (((((begins_text left plain).enclose _).append _).append _).append _).append _
  | logical op left right, ⟨plain, _⟩ => by
      rw [text]
      exact (((((begins_text left plain).enclose _).append _).append _).append _).append _
  | unary op operand, _ => by
      rw [text, before]
      refine Begins.append ?_ _
      cases op <;> exact ⟨_, _, rfl, by decide⟩
  | step op true target, _ => by
      rw [text]
      refine Begins.append ?_ _
      cases op <;> exact ⟨_, _, rfl, by decide⟩
  | step op false target, ⟨_, plain⟩ => by
      rw [text]
      exact ((begins_text target plain).enclose _).append _
  | call name arguments, ⟨named, _⟩ => by
      rw [text]
      exact (((begins_name named).append _).append _).append _

/-- An operator before an operand does not run together with it. -/
theorem apart_operand (op : UnaryOp) {inner : String} (begins : Begins inner) :
    ∀ next ∈ (enclose (op.symbol.toList.isPrefixOf inner.toList) inner).toList.head?,
      next ∉ Reader.continuations op.symbol := by
  obtain ⟨first, rest, spelled, other⟩ := begins
  have continuations : Reader.continuations op.symbol = ['-', '='] ∧ op.symbol.toList = ['-'] ∨
      Reader.continuations op.symbol = ['='] ∨ Reader.continuations op.symbol = [] := by
    cases op <;> decide
  intro next here glued
  cases fits : op.symbol.toList.isPrefixOf inner.toList with
  | true =>
      rw [fits] at here
      have opening : next = '(' := by simpa [enclose] using here.symm
      subst opening
      rcases continuations with ⟨known, _⟩ | known | known <;> rw [known] at glued <;> simp at glued
  | false =>
      rw [fits] at here
      have same : first = next := by simpa [enclose, spelled] using here
      subst same
      rcases continuations with ⟨known, minus⟩ | known | known
      · rw [minus, spelled] at fits
        rw [known] at glued
        rcases List.mem_pair.mp glued with rfl | rfl
        · cases fits
        · exact other rfl
      · rw [known, List.mem_singleton] at glued
        exact other glued
      · rw [known] at glued
        exact absurd glued List.not_mem_nil

mutual

/-- The tokens of a printed expression are those it is written with. -/
theorem spells_text : (value : Expression) → value.IsPlain → Spells value.text.toList value.tokens
  | word name, plain => by
      rw [text, tokens]
      exact Reader.spells_name plain
  | literal (.int value), _ => by
      rw [text, tokens]
      exact Reader.spells_int value
  | literal (.string value), _ => by
      rw [text, tokens]
      exact Reader.spells_string value
  | member base field, ⟨plain, _, named⟩ => by
      have field := (Reader.spells_name named).mark "." (by decide) (by decide)
      have whole := ((spells_text base plain).enclose (base.isWeakerThan .primary)).append field
        (endsName_of_head rfl) (List.cons_ne_nil _ _)
      rw [text, tokens]
      simpa only [String.toList_append, List.append_assoc] using whole
  | vector x y z, ⟨plainX, plainY, plainZ⟩ => by
      have last := (spells_text z plainZ).append (Reader.spells_nil.mark "]" (by decide) (by decide))
        (endsName_of_head rfl) (List.cons_ne_nil _ _)
      have later := (spells_text y plainY).append (last.blank.mark "," (by decide) (by decide))
        (endsName_of_head rfl) (List.cons_ne_nil _ _)
      have whole := ((spells_text x plainX).append (later.blank.mark "," (by decide) (by decide))
        (endsName_of_head rfl) (List.cons_ne_nil _ _)).mark "[" (by decide) (by decide)
      have comma : (", " : String).toList = ",".toList ++ [' '] := rfl
      rw [text, tokens]
      simpa only [String.toList_append, List.append_assoc, List.append_nil, comma,
        List.cons_append, List.nil_append] using whole
  | assign target value, ⟨_, plainTarget, plainValue⟩ => by
      have whole := (spells_text target plainTarget).operation (spells_text value plainValue) "="
        (by decide) (by decide)
      have blanks : (" = " : String).toList = ' ' :: ("=".toList ++ [' ']) := rfl
      rw [text, tokens, isWeakerThan_assignment, isWeakerThan_assignment]
      simpa only [enclose, Bool.false_eq_true, if_false, String.toList_append, List.append_assoc,
        blanks, List.cons_append, List.nil_append] using whole
  | binary op left right, ⟨plainLeft, plainRight⟩ => by
      have listed : op.symbol ∈ Reader.symbols ∧ ' ' ∉ Reader.continuations op.symbol := by
        cases op <;> decide
      have whole := ((spells_text left plainLeft).enclose (left.isWeakerThan op.precedence)).operation
        ((spells_text right plainRight).enclose (right.isWrappedRight op)) op.symbol
        listed.1 listed.2
      have blank : (" " : String).toList = [' '] := rfl
      rw [text, tokens]
      simpa only [String.toList_append, List.append_assoc, blank, List.cons_append,
        List.nil_append] using whole
  | logical op left right, ⟨plainLeft, plainRight⟩ => by
      have listed : op.symbol ∈ Reader.symbols ∧ ' ' ∉ Reader.continuations op.symbol := by
        cases op <;> decide
      have whole := ((spells_text left plainLeft).enclose (left.isWeakerThan op.precedence)).operation
        ((spells_text right plainRight).enclose (right.isWrappedRightLogical op)) op.symbol
        listed.1 listed.2
      have blank : (" " : String).toList = [' '] := rfl
      rw [text, tokens]
      simpa only [String.toList_append, List.append_assoc, blank, List.cons_append,
        List.nil_append] using whole
  | unary op operand, plain => by
      have begins := (begins_text operand plain).enclose (operand.isWeakerThan .unary)
      have whole := (((spells_text operand plain).enclose (operand.isWeakerThan .unary)).enclose
        _).symbol op.symbol (by cases op <;> decide) (apart_operand op begins)
        (begins.enclose _).nonempty
      rw [text, tokens, before]
      simpa only [String.toList_append] using whole
  | step op true target, ⟨_, plain⟩ => by
      have whole := ((spells_text target plain).enclose (target.isWeakerThan .unary)).mark op.symbol
        (by cases op <;> decide) (by cases op <;> decide)
      rw [text, tokens]
      simpa only [String.toList_append] using whole
  | step op false target, ⟨_, plain⟩ => by
      have symbol := Reader.spells_nil.mark op.symbol (by cases op <;> decide) (by cases op <;> decide)
      have whole := ((spells_text target plain).enclose (target.isWeakerThan .unary)).append symbol
        (by cases op <;> exact endsName_of_head rfl) (by cases op <;> exact List.cons_ne_nil _ _)
      rw [text, tokens]
      simpa only [String.toList_append, List.append_nil] using whole
  | call name arguments, ⟨named, plain⟩ => by
      have closed := (spells_texts arguments plain).mark "(" (by decide) (by decide)
      have whole := (Reader.spells_name named).append closed (endsName_of_head rfl)
        (List.cons_ne_nil _ _)
      rw [text, tokens]
      simpa only [String.toList_append, List.append_assoc, List.singleton_append] using whole
termination_by value => sizeOf value

/-- The tokens of printed arguments are those they are written with. -/
theorem spells_texts : (values : List Expression) → ArePlain values →
    Spells ((", ".intercalate (texts values)).toList ++ ")".toList)
      (listTokens values ++ [.symbol ")"])
  | [], _ => by
      rw [texts, listTokens]
      exact Reader.spells_nil.mark ")" (by decide) (by decide)
  | [value], plain => by
      have first := spells_text value.argument (arePlain_cons.mp plain).1
      rw [text_argument, tokens_argument] at first
      rw [texts, texts, listTokens]
      exact first.append (Reader.spells_nil.mark ")" (by decide) (by decide))
        (endsName_of_head rfl) (List.cons_ne_nil _ _)
  | value :: second :: values, plain => by
      obtain ⟨plain, later⟩ := arePlain_cons.mp plain
      have first := spells_text value.argument plain
      rw [text_argument, tokens_argument] at first
      have whole := first.append
        ((spells_texts (second :: values) later).blank.mark "," (by decide) (by decide))
        (endsName_of_head rfl) (List.cons_ne_nil _ _)
      have comma : (", " : String).toList = ",".toList ++ [' '] := rfl
      rw [texts, listTokens_cons_cons]
      simpa only [texts, String.toList_intercalate, List.map_cons, List.intercalate_cons_cons, comma,
        List.append_assoc, List.nil_append, List.cons_append] using whole
termination_by values => sizeOf values
decreasing_by
  all_goals
    have smaller := sizeOf_argument value
    simp only [List.cons.sizeOf_spec]
    omega

end

/-- A printed expression has the tokens it is written with. -/
theorem tokens?_text {value : Expression} (plain : value.IsPlain) :
    Reader.tokens? value.text.toList = some value.tokens := by
  have whole := spells_text value plain [] [] (by simp [Reader.EndsName]) (by rw [Reader.tokens?])
  rwa [List.append_nil, List.append_nil] at whole

end Expression
end NwScript
