import NwScript.Proofs.ReservedMarks

/-!
# Words of expressions and statements

The words of an expression or a statement are the names, literals and comments in it.  Its source text
shows no reserved marks but those of its words, and types and literals show few: a type can only be
undetermined, and a literal shows what its string does.
-/

namespace NwScript

section Literals

variable {marks : List String}

theorem isBare_ofList_toDigits (value : Nat) : IsBare (String.ofList (Nat.toDigits 10 value)) := by
  rw [IsBare, String.toList_ofList]
  intro listed
  have digit := Nat.isDigit_of_mem_toDigits (by decide) (by decide) listed
  exact absurd digit (by decide)

theorem isBare_nat (value : Nat) : IsBare (toString value) :=
  isBare_ofList_toDigits value

theorem isBare_int (value : Int) : IsBare (toString value) := by
  cases value with
  | ofNat value => exact isBare_nat value
  | negSucc value => exact (by decide : IsBare "-").append (isBare_nat (value + 1))

namespace Binary32

theorem isBare_sign (bits : Binary32) : IsBare bits.sign := by
  unfold sign
  split <;> decide

theorem isBare_pushn {text : String} (bare : IsBare text) (count : Nat) :
    IsBare (text.pushn '0' count) := by
  rw [String.pushn_eq_repeat_push]
  induction count with
  | zero => exact bare
  | succ count induction =>
      rw [Nat.repeat, IsBare, String.toList_push, List.mem_append]
      exact fun listed => listed.elim induction (by decide)

theorem isBare_positional (digits : Nat) (place : Int) : IsBare (positional digits place) := by
  have zeros : ∀ count, IsBare ("".pushn '0' count) := isBare_pushn (by decide)
  have part : ∀ {characters : List Char} {text : String}, IsBare text → characters ⊆ text.toList →
      IsBare (String.ofList characters) := by
    intro characters text bare included
    rw [IsBare, String.toList_ofList]
    exact fun listed => bare (included listed)
  unfold positional
  dsimp only
  split
  · exact (isBare_nat digits).append (zeros _)
  · have padded : IsBare ("".pushn '0' ((-place).toNat + 1 - (toString digits).length) ++
        toString digits) := (zeros _).append (isBare_nat digits)
    exact ((part padded (List.take_subset _ _)).append (by decide : IsBare ".")).append
      (part padded (List.drop_subset _ _))

theorem isBare_text (bits : Binary32) : IsBare bits.text := by
  unfold text
  split
  · decide
  · split
    · exact bits.isBare_sign.append (by decide)
    · split
      · exact bits.isBare_sign.append (by decide)
      · exact bits.isBare_sign.append (isBare_positional _ _)

theorem isBare_sourceText (bits : Binary32) : IsBare bits.sourceText := by
  unfold sourceText
  split
  · split
    · exact (bits.isBare_sign.append (isBare_nat _)).append (by decide)
    · exact bits.isBare_text
  · exact bits.isBare_text

end Binary32

namespace Quoted

/-- A character that is written as several is no underscore, and neither are these. -/
theorem encodeChar_cases (character : Char) : encodeChar character = [character] ∨
    character ≠ '_' ∧ '_' ∉ encodeChar character := by
  unfold encodeChar
  split
  case h_5 => exact .inl rfl
  all_goals exact .inr ⟨by decide, by decide⟩

/-- Characters that are written begin with an underscore only if they do so themselves. -/
theorem head?_encode {characters : List Char} (begins : (encode characters).head? = some '_') :
    characters.head? = some '_' := by
  cases characters with
  | nil => exact begins
  | cons character characters =>
      rw [encode_cons] at begins
      rcases encodeChar_cases character with same | ⟨-, absent⟩
      · rwa [same] at begins
      · cases spelled : encodeChar character with
        | nil => exact absurd spelled (by unfold encodeChar; split <;> exact List.cons_ne_nil _ _)
        | cons first rest =>
            rw [spelled] at begins absent
            exact absurd (Option.some.inj begins ▸ List.mem_cons_self) absent

/-- A string without double underscores is written without them. -/
theorem showsOnly_encode {characters : List Char} (shown : ShowsOnly [] characters) :
    ShowsOnly marks (encode characters) := by
  induction characters with
  | nil => trivial
  | cons character characters induction =>
      obtain ⟨here, later⟩ := shown
      rw [encode_cons]
      rcases encodeChar_cases character with same | ⟨-, absent⟩
      · rw [same]
        refine ShowsOnly.append ⟨fun starts => absurd starts (by simp), trivial⟩ (induction later) ?_
        by_cases last : character = '_'
        · subst last
          refine .inr fun begins => ?_
          obtain ⟨rest, rfl⟩ := List.head?_eq_some_iff.mp (head?_encode begins)
          obtain ⟨mark, listed, -⟩ := here ⟨rest, rfl⟩
          cases listed
        · exact .inl fun ends => last (Option.some.inj ends)
      · exact ShowsOnly.append (showsOnly_of_not_mem absent) (induction later)
          (.inl fun last => absent (List.mem_of_getLast? last))

theorem shows_literal {value : String} (shown : Shows [] value) : Shows marks (literal value) := by
  have quote : ∀ {marks}, Closes marks "\"" := (by decide : IsBare "\"").closes
  have written : Shows marks (String.ofList (encode value.toList)) := by
    rw [Shows, String.toList_ofList]
    exact showsOnly_encode shown
  exact (quote.shows_append written).append (by decide)

end Quoted

/-- A literal shows no double underscore unless it is a string that holds one. -/
theorem Constant.shows_sourceText {value : Constant}
    (plain : ∀ text, value = .string text → Shows [] text) : Shows marks value.sourceText := by
  unfold Constant.sourceText
  split
  · exact (isBare_int _).shows
  · exact (Binary32.isBare_sourceText _).shows
  · exact Quoted.shows_literal (plain _ rfl)
  · exact (by decide : Shows [] "OBJECT_SELF").mono (List.nil_subset _)
  · exact (by decide : Shows [] "OBJECT_INVALID").mono (List.nil_subset _)
  · exact (isBare_int _).shows

end Literals

section Types

variable {marks : List String}

/-- The mark of an undetermined type. -/
def invalidMark : String := "__invalid"

theorem TypeCode.shows_name (code : TypeCode) (either : invalidMark ∈ marks ∨ code ≠ .invalid) :
    Shows marks code.name := by
  by_cases undetermined : code = .invalid
  · subst undetermined
    have marked := either.resolve_right fun differ => differ rfl
    exact (by decide : Shows [invalidMark] TypeCode.invalid.name).mono
      (List.cons_subset.mpr ⟨marked, List.nil_subset _⟩)
  · have shown : Shows [] code.name := by
      cases code <;> first | exact absurd rfl undetermined | decide
    exact shown.mono (List.nil_subset _)

namespace Ty

mutual

/-- A type without undetermined parts. -/
def isDetermined : Ty → Bool
  | .simple code => code ≠ .invalid
  | .aggregate members => areDetermined members

/-- Types without undetermined parts. -/
def areDetermined : List Ty → Bool
  | [] => true
  | member :: members => member.isDetermined && areDetermined members

end

theorem areDetermined_cons {member : Ty} {members : List Ty} :
    areDetermined (member :: members) ↔ member.isDetermined ∧ areDetermined members :=
  Bool.and_eq_true_iff

theorem isFullyTyped_of_isDetermined {type : Ty} (determined : type.isDetermined) : type.isFullyTyped := by
  cases type with
  | simple code =>
      cases code <;> first | rfl | cases determined
  | aggregate members =>
      refine List.all_eq_true.mpr fun member listed => ?_
      have each : ∀ members : List Ty, areDetermined members → ∀ member ∈ members, member.isKnown := by
        intro members
        induction members with
        | nil => exact fun _ _ listed => absurd listed List.not_mem_nil
        | cons first members induction =>
            intro determined
            obtain ⟨here, later⟩ := areDetermined_cons.mp determined
            refine List.forall_mem_cons.mpr ⟨?_, induction later⟩
            exact decide_eq_true fun same => by rw [same] at here; cases here
      exact each members determined member listed

mutual

/-- A type shows at most that it is undetermined somewhere. -/
theorem shows_text : (type : Ty) → invalidMark ∈ marks ∨ type.isDetermined → Shows marks type.text
  | .simple code, either => code.shows_name (either.imp_right of_decide_eq_true)
  | .aggregate members, either => by
      have begun : Closes marks "struct \x7b" := (by decide : IsBare "struct \x7b").closes
      exact (begun.shows_append (shows_textOf members either)).append (by decide)

theorem shows_textOf : (members : List Ty) → invalidMark ∈ marks ∨ areDetermined members →
    Shows marks (textOf members)
  | [], _ => (by decide : IsBare "").shows
  | [member], either => by
      have blank : Closes marks " " := (by decide : IsBare " ").closes
      exact blank.shows_append (member.shows_text (either.imp_right fun all =>
        (areDetermined_cons.mp all).1))
  | member :: second :: members, either => by
      have blank : Closes marks " " := (by decide : IsBare " ").closes
      have first := blank.shows_append (member.shows_text (either.imp_right fun all =>
        (areDetermined_cons.mp all).1))
      exact (first.closes (by decide : IsBare ",") (by decide)).shows_append
        (shows_textOf (second :: members) (either.imp_right fun all => (areDetermined_cons.mp all).2))

end

end Ty

/-- The spelling of a type shows at most that it is undetermined. -/
theorem StructTable.shows_spell (table : StructTable) {type : Ty}
    (either : invalidMark ∈ marks ∨ type.isDetermined) : Shows marks (table.spell type) := by
  unfold spell
  split
  · rename_i name named
    cases type with
    | simple => cases named
    | aggregate members =>
        obtain ⟨index, -, rfl⟩ := Option.map_eq_some_iff.mp named
        exact ((by decide : IsBare "struct ").append
          ((by decide : IsBare "structtype").append (isBare_nat _))).shows
  · exact type.shows_text either

end Types

namespace Expression

mutual

/-- The names and literals of an expression. -/
def words : Expression → List String
  | word name => [name]
  | literal value => [value.sourceText]
  | inlined value => value.words
  | member base field => base.words ++ [field]
  | vector x y z => x.words ++ (y.words ++ z.words)
  | assign target value => target.words ++ value.words
  | binary _ left right | logical _ left right => left.words ++ right.words
  | unary _ operand | step _ _ operand => operand.words
  | call name arguments => name :: wordsOf arguments

/-- The names and literals of some expressions. -/
def wordsOf : List Expression → List String
  | [] => []
  | value :: values => value.words ++ wordsOf values

end

theorem mem_wordsOf {values : List Expression} {shown : String} :
    shown ∈ wordsOf values ↔ ∃ value ∈ values, shown ∈ value.words := by
  induction values with
  | nil => simp [wordsOf]
  | cons value values induction => simp [wordsOf, induction]

section Printing

variable {marks : List String}

theorem shows_enclose {text : String} (shown : Shows marks text) (needed : Bool) :
    Shows marks (enclose needed text) := by
  cases needed with
  | false => exact shown
  | true =>
      have opened : Closes marks "(" := (by decide : IsBare "(").closes
      exact (opened.shows_append shown).append (by decide)

/-- Two texts with a separator between them. -/
theorem shows_between {left right separator : String} (first : Shows marks left)
    (second : Shows marks right) (bare : IsBare separator) (filled : separator ≠ "") :
    Shows marks (left ++ separator ++ right) :=
  (first.closes bare filled).shows_append second

/-- Two texts with an operator between them. -/
theorem shows_operator {left right symbol : String} (first : Shows marks left)
    (second : Shows marks right) (bare : IsBare symbol) :
    Shows marks (left ++ " " ++ symbol ++ " " ++ right) := by
  have blank : IsBare " " := by decide
  have begun : Shows marks (left ++ " " ++ symbol) := (first.append blank).append bare
  exact shows_between begun second blank (by decide)

theorem BinaryOp.isBare_symbol (op : BinaryOp) : IsBare op.symbol := by
  cases op <;> decide

theorem LogicalOp.isBare_symbol (op : LogicalOp) : IsBare op.symbol := by
  cases op <;> decide

theorem UnaryOp.isBare_symbol (op : UnaryOp) : IsBare op.symbol := by
  cases op <;> decide

theorem StepOp.isBare_symbol (op : StepOp) : IsBare op.symbol := by
  cases op <;> decide

mutual

/-- The source text of an expression shows what its words show. -/
theorem shows_text : (value : Expression) → (∀ word ∈ value.words, Shows marks word) →
    Shows marks value.text
  | word name, shown => shown name (List.mem_singleton_self name)
  | literal value, shown => shown value.sourceText (List.mem_singleton_self _)
  | inlined value, shown => shows_text value shown
  | member base field, shown => by
      obtain ⟨inner, outer⟩ := List.forall_mem_append.mp shown
      exact shows_between (shows_enclose (shows_text base inner) _)
        (outer field (List.mem_singleton_self field)) (by decide : IsBare ".") (by decide)
  | vector x y z, shown => by
      obtain ⟨first, later⟩ := List.forall_mem_append.mp shown
      obtain ⟨second, third⟩ := List.forall_mem_append.mp later
      have comma : IsBare ", " := by decide
      have opened : Closes marks "[" := (by decide : IsBare "[").closes
      have one := opened.shows_append (shows_text x first)
      have two := shows_between one (shows_text y second) comma (by decide)
      exact (shows_between two (shows_text z third) comma (by decide)).append (by decide)
  | assign target value, shown => by
      obtain ⟨left, right⟩ := List.forall_mem_append.mp shown
      exact shows_between (shows_enclose (shows_text target left) _)
        (shows_enclose (shows_text value right) _) (by decide : IsBare " = ") (by decide)
  | binary op left right, shown => by
      obtain ⟨first, second⟩ := List.forall_mem_append.mp shown
      exact shows_operator (shows_enclose (shows_text left first) _)
        (shows_enclose (shows_text right second) _) (BinaryOp.isBare_symbol op)
  | logical op left right, shown => by
      obtain ⟨first, second⟩ := List.forall_mem_append.mp shown
      exact shows_operator (shows_enclose (shows_text left first) _)
        (shows_enclose (shows_text right second) _) (LogicalOp.isBare_symbol op)
  | unary op operand, shown =>
      (UnaryOp.isBare_symbol op).closes.shows_append
        (shows_enclose (shows_enclose (shows_text operand shown) _) _)
  | step op true target, shown =>
      (StepOp.isBare_symbol op).closes.shows_append (shows_enclose (shows_text target shown) _)
  | step op false target, shown =>
      (shows_enclose (shows_text target shown) _).append (StepOp.isBare_symbol op)
  | call name arguments, shown => by
      obtain ⟨named, passed⟩ := List.forall_mem_cons.mp shown
      have opened := named.closes (by decide : IsBare "(") (by decide)
      have listed : Shows marks (", ".intercalate (texts arguments)) :=
        .intercalate (by decide) (by decide) (shows_texts arguments passed)
      exact (opened.shows_append listed).append (by decide)

theorem shows_texts : (values : List Expression) → (∀ word ∈ wordsOf values, Shows marks word) →
    ∀ text ∈ texts values, Shows marks text
  | [], _ => fun _ listed => absurd listed List.not_mem_nil
  | value :: values, shown => by
      obtain ⟨here, later⟩ := List.forall_mem_append.mp shown
      exact List.forall_mem_cons.mpr ⟨shows_text value here, shows_texts values later⟩

end

end Printing
end Expression

namespace Statement

mutual

/-- The names, literals and comments of a statement; a declaration counts its type and name as one. -/
def words : Statement → List String
  | block body | otherwise body => wordsOf body
  | branch condition body | whileLoop condition body | doLoop condition body
  | switch condition body => condition.words ++ wordsOf body
  | branchElse condition body other => condition.words ++ (wordsOf body ++ wordsOf other)
  | case none body => wordsOf body
  | case (some label) body => label.words ++ wordsOf body
  | declaration name none => [name]
  | declaration name (some init) => name :: init.words
  | evaluate value | ret (some value) => value.words
  | ret none | leave | next => []
  | comment text => [text]

/-- The names, literals and comments of some statements. -/
def wordsOf : List Statement → List String
  | [] => []
  | statement :: statements => statement.words ++ wordsOf statements

end

theorem mem_wordsOf {statements : List Statement} {shown : String} :
    shown ∈ wordsOf statements ↔ ∃ statement ∈ statements, shown ∈ statement.words := by
  induction statements with
  | nil => simp [wordsOf]
  | cons statement statements induction => simp [wordsOf, induction]

/-- Pairing branches with their else branches keeps the words. -/
theorem wordsOf_pairElse (statements : List Statement) :
    wordsOf (pairElse statements) = wordsOf statements := by
  fun_induction pairElse statements with
  | case1 condition body other rest induction => simp [wordsOf, words, induction]
  | case2 statement rest _ induction => simp [wordsOf, induction]
  | case3 => rfl

section Printing

variable {marks : List String} {indent : String}

/-- A word with texts around it. -/
theorem closes_around {before text behind : String} (shown : Shows marks text) (first : IsBare before)
    (last : IsBare behind) (filled : behind ≠ "") : Closes marks (before ++ text ++ behind) :=
  (first.closes.shows_append shown).closes last filled

theorem closes_pad (bare : IsBare indent) (depth : Nat) : Closes marks (pad indent depth) := by
  refine Closes.join fun text listed => ?_
  rw [List.eq_of_mem_replicate listed]
  exact bare.closes

theorem closes_braced {header body padding : String} (first : Closes marks header)
    (inner : Closes marks body) (last : Closes marks padding) : Closes marks (braced header body padding) :=
  (((first.append (by decide : IsBare "\x7b\n").closes).append inner).append last).append
    (by decide : IsBare "\x7d").closes

/-- A body behind a keyword and a condition. -/
theorem closes_guarded {keyword test body padding : String} (bare : IsBare keyword)
    (tested : Shows marks test) (inner : Closes marks body) (last : Closes marks padding) :
    Closes marks (braced (keyword ++ test ++ ") ") body padding) :=
  closes_braced (closes_around tested bare (by decide) (by decide)) inner last

mutual

/-- The source text of a statement shows what its words show. -/
theorem closes_bare (bare_indent : IsBare indent) (depth : Nat) : (statement : Statement) →
    (∀ word ∈ statement.words, Shows marks word) → Closes marks (bare indent depth statement)
  | block body, shown =>
      closes_braced (by decide : IsBare "").closes (closes_lines bare_indent (depth + 1) body shown)
        (closes_pad bare_indent depth)
  | branch condition body, shown => by
      obtain ⟨tested, inner⟩ := List.forall_mem_append.mp shown
      exact closes_guarded (by decide : IsBare "if (") (condition.shows_text tested)
        (closes_lines bare_indent (depth + 1) body inner) (closes_pad bare_indent depth)
  | branchElse condition body other, shown => by
      obtain ⟨tested, both⟩ := List.forall_mem_append.mp shown
      obtain ⟨inner, outer⟩ := List.forall_mem_append.mp both
      have first := closes_guarded (by decide : IsBare "if (") (condition.shows_text tested)
        (closes_lines bare_indent (depth + 1) body inner) (closes_pad bare_indent depth)
      have begun := first.append (by decide : IsBare " else ").closes
      rw [bare]
      split
      · exact begun.append (closes_first bare_indent depth other outer)
      · exact begun.append (closes_braced (by decide : IsBare "").closes
          (closes_lines bare_indent (depth + 1) other outer) (closes_pad bare_indent depth))
  | otherwise body, shown =>
      closes_braced (by decide : IsBare "else ").closes (closes_lines bare_indent (depth + 1) body shown)
        (closes_pad bare_indent depth)
  | whileLoop condition body, shown => by
      obtain ⟨tested, inner⟩ := List.forall_mem_append.mp shown
      exact closes_guarded (by decide : IsBare "while (") (condition.shows_text tested)
        (closes_lines bare_indent (depth + 1) body inner) (closes_pad bare_indent depth)
  | doLoop condition body, shown => by
      obtain ⟨tested, inner⟩ := List.forall_mem_append.mp shown
      have first := closes_braced (by decide : IsBare "do ").closes
        (closes_lines bare_indent (depth + 1) body inner) (closes_pad bare_indent depth)
      have begun : Closes marks (_ ++ " while (") := first.append (by decide : IsBare " while (").closes
      exact (begun.shows_append (condition.shows_text tested)).closes (by decide : IsBare ");")
        (by decide)
  | switch subject cases, shown => by
      obtain ⟨tested, inner⟩ := List.forall_mem_append.mp shown
      exact closes_guarded (by decide : IsBare "switch (") (subject.shows_text tested)
        (closes_lines bare_indent (depth + 1) cases inner) (closes_pad bare_indent depth)
  | case (some label) body, shown => by
      obtain ⟨labelled, inner⟩ := List.forall_mem_append.mp shown
      exact (closes_around (label.shows_text labelled) (by decide : IsBare "case ")
        (by decide : IsBare ":") (by decide)).append (closes_beneath bare_indent depth body inner)
  | case none body, shown =>
      (by decide : IsBare "default:").closes.append (closes_beneath bare_indent depth body shown)
  | declaration name (some init), shown => by
      obtain ⟨named, initial⟩ := List.forall_mem_cons.mp shown
      exact (Expression.shows_between named (init.shows_text initial) (by decide : IsBare " = ")
        (by decide)).closes (by decide : IsBare ";") (by decide)
  | declaration name none, shown =>
      (shown name (List.mem_singleton_self name)).closes (by decide : IsBare ";") (by decide)
  | evaluate value, shown =>
      (value.shows_text shown).closes (by decide : IsBare ";") (by decide)
  | ret (some value), shown =>
      closes_around (value.shows_text shown) (by decide : IsBare "return ") (by decide : IsBare ";")
        (by decide)
  | ret none, _ => (by decide : IsBare "return;").closes
  | leave, _ => (by decide : IsBare "break;").closes
  | next, _ => (by decide : IsBare "continue;").closes
  | comment text, shown =>
      closes_around (shown text (List.mem_singleton_self text)) (by decide : IsBare "/* ")
        (by decide : IsBare " */") (by decide)

theorem closes_lines (bare_indent : IsBare indent) (depth : Nat) : (statements : List Statement) →
    (∀ word ∈ wordsOf statements, Shows marks word) → Closes marks (lines indent depth statements)
  | [], _ => (by decide : IsBare "").closes
  | statement :: rest, shown => by
      obtain ⟨here, later⟩ := List.forall_mem_append.mp shown
      have line := (closes_pad bare_indent depth).append (closes_bare bare_indent depth statement here)
      exact (line.append (by decide : IsBare "\n").closes).append (closes_lines bare_indent depth rest later)

theorem closes_beneath (bare_indent : IsBare indent) (depth : Nat) : (statements : List Statement) →
    (∀ word ∈ wordsOf statements, Shows marks word) → Closes marks (beneath indent depth statements)
  | [], _ => (by decide : IsBare "").closes
  | statement :: rest, shown => by
      obtain ⟨here, later⟩ := List.forall_mem_append.mp shown
      have line := ((by decide : IsBare "\n").closes.append (closes_pad bare_indent (depth + 1))).append
        (closes_bare bare_indent (depth + 1) statement here)
      exact line.append (closes_beneath bare_indent depth rest later)

theorem closes_first (bare_indent : IsBare indent) (depth : Nat) : (statements : List Statement) →
    (∀ word ∈ wordsOf statements, Shows marks word) → Closes marks (first indent depth statements)
  | [], _ => (by decide : IsBare "").closes
  | statement :: _, shown =>
      closes_bare bare_indent depth statement (List.forall_mem_append.mp shown).1

end

end Printing
end Statement
end NwScript
