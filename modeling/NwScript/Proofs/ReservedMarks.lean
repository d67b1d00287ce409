import NwScript.Script.Reading

/-!
# Reserved marks in printed text

Reserved names begin with a double underscore.  A printed text is put together from words, which are the
names and literals that it shows, with separators between them that hold no underscore.  So no double
underscore comes about where two parts meet, and a text shows no marks but those of its words.
-/

namespace NwScript

/-- Every double underscore among some characters begins one of some marks. -/
def ShowsOnly (marks : List String) : List Char → Prop
  | [] => True
  | character :: rest => (['_', '_'] <+: character :: rest →
      ∃ mark ∈ marks, mark.toList <+: character :: rest) ∧ ShowsOnly marks rest

instance (marks : List String) : DecidablePred (ShowsOnly marks)
  | [] => isTrue trivial
  | _ :: rest =>
      have : Decidable (ShowsOnly marks rest) := instDecidablePredListCharShowsOnly marks rest
      inferInstanceAs (Decidable (_ ∧ _))

/-- Every double underscore in a text begins one of some marks. -/
def Shows (marks : List String) (text : String) : Prop :=
  ShowsOnly marks text.toList

instance (marks : List String) : DecidablePred (Shows marks) :=
  fun text => inferInstanceAs (Decidable (ShowsOnly marks text.toList))

/-- A text without underscores. -/
def IsBare (text : String) : Prop :=
  '_' ∉ text.toList

instance : DecidablePred IsBare :=
  fun text => inferInstanceAs (Decidable ('_' ∉ text.toList))

/-- A text shows some marks only and does not end with an underscore, so that any text may follow. -/
structure Closes (marks : List String) (text : String) : Prop where
  /-- It shows the marks only. -/
  shows : Shows marks text
  /-- It does not end with an underscore. -/
  seam : text.toList.getLast? ≠ some '_'

section Characters

variable {marks more : List String} {left right : List Char}

/-- What the recursion checks at each place, for all places. -/
theorem showsOnly_iff {text : List Char} : ShowsOnly marks text ↔
    ∀ before after, text = before ++ '_' :: '_' :: after →
      ∃ mark ∈ marks, mark.toList <+: '_' :: '_' :: after := by
  induction text with
  | nil => simp [ShowsOnly]
  | cons character rest induction =>
      rw [ShowsOnly, induction]
      constructor
      · rintro ⟨here, later⟩ before after split
        cases before with
        | nil =>
            rw [List.nil_append] at split
            exact split ▸ here (split ▸ ⟨after, rfl⟩)
        | cons first before =>
            obtain ⟨-, split⟩ := List.cons.inj split
            exact later before after split
      · intro all
        refine ⟨fun starts => ?_, fun before after split => all (character :: before) after ?_⟩
        · obtain ⟨after, split⟩ := starts
          have marked := all [] after split.symm
          rwa [show character :: rest = '_' :: '_' :: after from split.symm]
        · rw [split, List.cons_append]

theorem ShowsOnly.mono (shown : ShowsOnly marks left) (included : marks ⊆ more) : ShowsOnly more left := by
  induction left with
  | nil => trivial
  | cons character rest induction =>
      obtain ⟨here, later⟩ := shown
      refine ⟨fun starts => ?_, induction later⟩
      obtain ⟨mark, listed, begins⟩ := here starts
      exact ⟨mark, included listed, begins⟩

theorem showsOnly_of_not_mem (bare : '_' ∉ left) : ShowsOnly marks left := by
  induction left with
  | nil => trivial
  | cons character rest induction =>
      refine ⟨fun starts => ?_, induction fun later => bare (List.mem_cons_of_mem _ later)⟩
      exact absurd (starts.subset List.mem_cons_self) bare

/-- No double underscore comes about where the first part does not end with an underscore or the second
one does not begin with one. -/
theorem ShowsOnly.append (first : ShowsOnly marks left) (second : ShowsOnly marks right)
    (seam : left.getLast? ≠ some '_' ∨ right.head? ≠ some '_') : ShowsOnly marks (left ++ right) := by
  induction left with
  | nil => exact second
  | cons character rest induction =>
      obtain ⟨here, later⟩ := first
      have behind : rest.getLast? ≠ some '_' ∨ right.head? ≠ some '_' := by
        cases rest with
        | nil => exact .inl (by simp)
        | cons other rest => rwa [List.getLast?_cons_cons] at seam
      refine ⟨fun starts => ?_, induction later behind⟩
      have within : ['_', '_'] <+: character :: rest := by
        cases rest with
        | cons other rest => simpa using starts
        | nil =>
            exfalso
            cases right with
            | nil => simp at starts
            | cons other right =>
                obtain ⟨rfl, next⟩ := List.cons_prefix_cons.mp starts
                obtain ⟨rfl, -⟩ := List.cons_prefix_cons.mp next
                simp at seam
      obtain ⟨mark, listed, begins⟩ := here within
      exact ⟨mark, listed, begins.trans (List.prefix_append _ _)⟩

end Characters

section Texts

variable {marks more : List String} {left right text separator : String}

theorem Shows.mono (shown : Shows marks text) (included : marks ⊆ more) : Shows more text :=
  ShowsOnly.mono shown included

theorem IsBare.shows (bare : IsBare text) : Shows marks text :=
  showsOnly_of_not_mem bare

theorem IsBare.append (first : IsBare left) (second : IsBare right) : IsBare (left ++ right) := by
  rw [IsBare, String.toList_append, List.mem_append]
  exact fun listed => listed.elim first second

theorem IsBare.closes (bare : IsBare text) : Closes marks text :=
  ⟨bare.shows, fun last => bare (List.mem_of_getLast? last)⟩

theorem Closes.shows_append (first : Closes marks left) (second : Shows marks right) :
    Shows marks (left ++ right) := by
  rw [Shows, String.toList_append]
  exact ShowsOnly.append first.shows second (.inl first.seam)

theorem Closes.append (first : Closes marks left) (second : Closes marks right) :
    Closes marks (left ++ right) := by
  refine ⟨first.shows_append second.shows, ?_⟩
  rw [String.toList_append, List.getLast?_append]
  have seam := second.seam
  cases last : right.toList.getLast? with
  | none => exact first.seam
  | some character =>
      rw [last] at seam
      exact seam

/-- A text that holds no underscore may stand behind any other. -/
theorem Shows.append (first : Shows marks left) (second : IsBare right) : Shows marks (left ++ right) := by
  rw [Shows, String.toList_append]
  exact ShowsOnly.append first (showsOnly_of_not_mem second)
    (.inr fun begins => second (List.mem_of_head? begins))

theorem Shows.closes (first : Shows marks left) (second : IsBare right) (filled : right ≠ "") :
    Closes marks (left ++ right) := by
  refine ⟨first.append second, ?_⟩
  rw [String.toList_append, List.getLast?_append]
  cases last : right.toList.getLast? with
  | none => exact absurd (String.toList_eq_nil_iff.mp (List.getLast?_eq_none_iff.mp last)) filled
  | some character =>
      intro same
      obtain rfl := Option.some.inj same
      exact second (List.mem_of_getLast? last)

/-- Texts with a separator between them. -/
theorem Shows.intercalate (bare : IsBare separator) (filled : separator ≠ "") {texts : List String}
    (shown : ∀ text ∈ texts, Shows marks text) : Shows marks (separator.intercalate texts) := by
  rw [Shows, String.toList_intercalate]
  induction texts with
  | nil => exact trivial
  | cons first texts induction =>
      obtain ⟨here, later⟩ := List.forall_mem_cons.mp shown
      cases texts with
      | nil => simpa using show ShowsOnly marks first.toList from here
      | cons second texts =>
          rw [List.map_cons, List.map_cons, List.intercalate_cons_cons]
          have closed := here.closes bare filled
          have begun := closed.shows
          have seam := closed.seam
          rw [Shows, String.toList_append] at begun
          rw [String.toList_append] at seam
          exact begun.append (induction later) (.inl seam)

theorem Closes.join {texts : List String} (closed : ∀ text ∈ texts, Closes marks text) :
    Closes marks (String.join texts) := by
  have folded : ∀ (texts : List String) (front : String), Closes marks front →
      (∀ text ∈ texts, Closes marks text) → Closes marks (texts.foldl (· ++ ·) front) := by
    intro texts
    induction texts with
    | nil => exact fun _ front _ => front
    | cons text texts induction =>
        intro front begun closed
        obtain ⟨here, later⟩ := List.forall_mem_cons.mp closed
        exact induction _ (begun.append here) later
  exact folded texts "" (by decide : IsBare "").closes closed

end Texts
end NwScript
