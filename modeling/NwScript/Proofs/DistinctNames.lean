import NwScript.Proofs.VariableNames

/-!
# Distinct names

A name is a label and a number.  The label spells the type and the class of the variable, or says that a
parameter has no type yet, and ends where the digits begin, so the name tells both.  The label tells in
turn which of the counts the number is from, and counts only grow.  So no two variables with names of
their own are called alike.
-/

namespace NwScript

section Numbers

/-- Numbers that are spelled alike are the same. -/
theorem eq_of_toString_eq {first second : Nat} (same : toString first = toString second) :
    first = second := by
  have digits : Nat.toDigits 10 first = Nat.toDigits 10 second := by
    rw [Nat.toString_eq_ofList_toDigits, Nat.toString_eq_ofList_toDigits] at same
    exact String.ofList_injective same
  rw [← Nat.ofDigitChars_ten_toDigits (n := first), digits, Nat.ofDigitChars_ten_toDigits]

/-- A text without digits. -/
def HasNoDigits (text : String) : Prop :=
  ∀ character ∈ text.toList, character.isDigit = false

instance (text : String) : Decidable (HasNoDigits text) :=
  List.decidableBAll (fun character : Char => character.isDigit = false) text.toList

theorem HasNoDigits.append {first second : String} (plain : HasNoDigits first)
    (others : HasNoDigits second) : HasNoDigits (first ++ second) := by
  rw [HasNoDigits, String.toList_append]
  exact List.forall_mem_append.mpr ⟨plain, others⟩

/-- The first digit of a text is where the number at its end begins. -/
theorem takeWhile_append_toString {label : String} (plain : HasNoDigits label) (number : Nat) :
    (label ++ toString number).toList.takeWhile (fun character => !character.isDigit) =
      label.toList := by
  rw [String.toList_append, List.takeWhile_append_of_pos (by simpa [HasNoDigits] using plain),
    Nat.toString_eq_repr, Nat.toList_repr]
  cases digits : Nat.toDigits 10 number with
  | nil => exact absurd digits Nat.toDigits_ne_nil
  | cons digit others =>
      have numeric : digit.isDigit := by
        refine Nat.isDigit_of_mem_toDigits (b := 10) (n := number) (by decide) (by decide) ?_
        rw [digits]
        exact List.mem_cons_self
      simp [numeric]

/-- A label without digits and a number behind it can be told apart. -/
theorem eq_of_append_toString_eq {label other : String} {number count : Nat}
    (plain : HasNoDigits label) (bare : HasNoDigits other)
    (same : label ++ toString number = other ++ toString count) : label = other ∧ number = count := by
  have labels : label = other := by
    rw [← String.toList_inj, ← takeWhile_append_toString plain number, same,
      takeWhile_append_toString bare]
  subst labels
  exact ⟨rfl, eq_of_toString_eq ((String.append_right_inj label).mp same)⟩

end Numbers

namespace VarTable

section Labels

theorem hasNoDigits_typePart (type : Ty) : HasNoDigits (typePart type) := by
  rw [typePart]
  cases type.code <;> decide

theorem hasNoDigits_label (entry : Variable) : HasNoDigits (label entry) := by
  rw [label]
  split
  · decide
  · refine (hasNoDigits_typePart entry.type).append ?_
    cases entry.kind <;> decide

/-- No spelling of a type ends like that of a class, and none is that of an undetermined parameter. -/
theorem typePart_plain (type : Ty) : ¬"Param".toList <:+ (typePart type).toList ∧
    ¬"Global".toList <:+ (typePart type).toList ∧ typePart type ≠ "__unresolved_param" := by
  rw [typePart]
  cases type.code <;> decide

theorem kindPart_cases (kind : VarKind) :
    kindPart kind = "" ∨ kindPart kind = "Param" ∨ kindPart kind = "Global" := by
  cases kind <;> decide

theorem typePart_ne_append (type other : Ty) {part : String}
    (named : part = "Param" ∨ part = "Global") : typePart type ≠ typePart other ++ part := by
  intro same
  have ending : part.toList <:+ (typePart type).toList :=
    ⟨(typePart other).toList, by rw [same, String.toList_append]⟩
  rcases named with rfl | rfl
  · exact (typePart_plain type).1 ending
  · exact (typePart_plain type).2.1 ending

theorem append_param_ne_append_global (first second : String) : first ++ "Param" ≠ second ++ "Global" := by
  intro same
  have last := congrArg (fun text => text.toList.getLast?) same
  simp [String.toList_append] at last

/-- What spells type and class tells where the class begins. -/
theorem parts_eq_of_append_eq {type other : Ty} {kind kind' : VarKind}
    (same : typePart type ++ kindPart kind = typePart other ++ kindPart kind') :
    typePart type = typePart other ∧ kindPart kind = kindPart kind' := by
  suffices classes : kindPart kind = kindPart kind' by
    rw [classes] at same
    exact ⟨(String.append_left_inj _).mp same, classes⟩
  rcases kindPart_cases kind with first | first | first <;>
    rcases kindPart_cases kind' with second | second | second <;>
    rw [first, second] at same ⊢
  · exact absurd (String.append_empty ▸ same) (typePart_ne_append _ _ (.inl rfl))
  · exact absurd (String.append_empty ▸ same) (typePart_ne_append _ _ (.inr rfl))
  · exact absurd (String.append_empty ▸ same.symm) (typePart_ne_append _ _ (.inl rfl))
  · exact absurd same (append_param_ne_append_global _ _)
  · exact absurd (String.append_empty ▸ same.symm) (typePart_ne_append _ _ (.inr rfl))
  · exact absurd same.symm (append_param_ne_append_global _ _)

/-- The label of an undetermined parameter spells no type and class. -/
theorem append_ne_unresolved (type : Ty) (kind : VarKind) :
    typePart type ++ kindPart kind ≠ "__unresolved_param" := by
  intro same
  rcases kindPart_cases kind with none_given | param | global
  · rw [none_given, String.append_empty] at same
    exact (typePart_plain type).2.2 same
  · rw [param] at same
    have last := congrArg (fun text => text.toList.reverse.take 5) same
    simp [String.toList_append] at last
  · rw [global] at same
    have last := congrArg (fun text => text.toList.getLast?) same
    simp [String.toList_append] at last

/-- The label tells which count a number is from. -/
theorem counter_eq_of_label_eq {entry other : Variable} (same : label entry = label other) :
    isUntyped entry = isUntyped other ∧ (isUntyped entry = false →
      typePart entry.type = typePart other.type ∧ kindPart entry.kind = kindPart other.kind) := by
  rw [label, label] at same
  split at same <;> split at same
  · rename_i untyped others
    exact ⟨untyped.trans others.symm, fun typed => absurd untyped (by simp [typed])⟩
  · exact absurd same.symm (append_ne_unresolved _ _)
  · exact absurd same (append_ne_unresolved _ _)
  · rename_i typed others
    refine ⟨?_, fun _ => parts_eq_of_append_eq same⟩
    rw [Bool.eq_false_iff.mpr typed, Bool.eq_false_iff.mpr others]

end Labels

namespace Naming

variable {naming : Naming} {entry other : Variable}

/-- Whatever is counted, no count goes down. -/
theorem next_le_next_count (naming : Naming) (entry other : Variable) :
    naming.next other ≤ (naming.count entry).next other := by
  have params : naming.params ≤ (naming.count entry).params := by
    unfold count bump
    split <;> split <;> first | exact Nat.le_succ _ | exact Nat.le_refl _
  have used : naming.used (key other) ≤ (naming.count entry).used (key other) := by
    rw [used_count]
    exact Nat.le_add_right _ _
  unfold next
  split
  · exact params
  · exact Nat.succ_le_succ used

/-- A variable is counted among those of its label. -/
theorem next_lt_next_count (same : label entry = label other) :
    naming.next entry < (naming.count entry).next other := by
  obtain ⟨alike, spelled⟩ := counter_eq_of_label_eq same
  unfold next count
  rw [← alike]
  by_cases untyped : isUntyped entry = true
  · have param : entry.kind = .param := by
      rw [isUntyped, Bool.and_eq_true] at untyped
      exact of_decide_eq_true untyped.1
    rw [if_pos untyped, if_pos untyped, if_pos untyped, if_pos param]
    exact Nat.lt_succ_self _
  · obtain ⟨types, kinds⟩ := spelled (Bool.eq_false_iff.mpr untyped)
    have keys : key other = key entry := Prod.ext types.symm kinds.symm
    rw [if_neg untyped, if_neg untyped, if_neg untyped, used_bump, if_pos keys, keys]
    split <;> exact Nat.lt_succ_self _

/-- The number of each name is not below what it would have been at first. -/
theorem exists_of_mem_nameAll {entries : List Variable} (listed : other ∈ naming.nameAll entries)
    (named : IsNamed other) :
    ∃ number, naming.next other ≤ number ∧ other.name = some (label other ++ toString number) := by
  induction entries generalizing naming with
  | nil => exact absurd listed List.not_mem_nil
  | cons entry entries induction =>
      by_cases own : IsNamed entry
      · rw [nameAll, naming.name_of_isNamed own] at listed
        rcases List.mem_cons.mp listed with rfl | later
        · exact ⟨_, Nat.le_refl _, rfl⟩
        · obtain ⟨number, above, spelled⟩ := induction later
          exact ⟨number, Nat.le_trans (naming.next_le_next_count entry other) above, spelled⟩
      · rw [nameAll, naming.name_of_not_isNamed own] at listed
        rcases List.mem_cons.mp listed with rfl | later
        · exact absurd named own
        · exact induction later

/-- Variables with names of their own are called apart, in whatever order they come. -/
theorem pairwise_nameAll (naming : Naming) (entries : List Variable) :
    (naming.nameAll entries).Pairwise fun first second =>
      IsNamed first → IsNamed second → first.name ≠ second.name := by
  induction entries generalizing naming with
  | nil => exact .nil
  | cons entry entries induction =>
      by_cases own : IsNamed entry
      · rw [nameAll, naming.name_of_isNamed own]
        refine .cons (fun other listed _ named same => ?_) (induction _)
        obtain ⟨number, above, spelled⟩ := exists_of_mem_nameAll listed named
        rw [spelled] at same
        obtain ⟨labels, numbers⟩ := eq_of_append_toString_eq (hasNoDigits_label _)
          (hasNoDigits_label _) (Option.some.inj same)
        exact Nat.lt_irrefl _ (numbers ▸ Nat.lt_of_lt_of_le (next_lt_next_count labels) above)
      · rw [nameAll, naming.name_of_not_isNamed own]
        exact .cons (fun _ _ named => absurd named own) (induction _)

end Naming

section Table

variable {table : VarTable} {id other : VarId} {entry found : Variable}

/-- A variable keeps all but its name. -/
theorem get?_assignNames_of_isNamed (here : table.get? id = some entry) (named : IsNamed entry) :
    ∃ name, table.assignNames.get? id = some { entry with name := some name } := by
  rw [get?_assignNames, here, Option.map_some, Naming.name_of_isNamed _ named]
  exact ⟨_, rfl⟩

/-- Two entries of a table after all variables were named. -/
theorem name_ne_of_lt {first second : Variable} (before : id < other)
    (here : table.assignNames.get? id = some first)
    (there : table.assignNames.get? other = some second)
    (named : IsNamed first) (others : IsNamed second) : first.name ≠ second.name := by
  rw [assignNames, get?, List.getElem?_toArray, List.getElem?_eq_some_iff] at here there
  obtain ⟨inside, rfl⟩ := here
  obtain ⟨within, rfl⟩ := there
  have apart := List.pairwise_iff_getElem.mp (Naming.pairwise_nameAll {} table.vars.toList)
  exact apart id other inside within before named others

/-- Every variable with a name of its own gets one, and no two of them get the same. -/
theorem assignNames_distinct (here : table.get? id = some entry) (there : table.get? other = some found)
    (named : IsNamed entry) (others : IsNamed found) (different : id ≠ other) :
    ∃ name another, table.assignNames.get? id = some { entry with name := some name } ∧
      table.assignNames.get? other = some { found with name := some another } ∧ name ≠ another := by
  obtain ⟨name, first⟩ := get?_assignNames_of_isNamed here named
  obtain ⟨another, second⟩ := get?_assignNames_of_isNamed there others
  refine ⟨name, another, first, second, fun same => ?_⟩
  rcases Nat.lt_or_gt_of_ne different with before | after
  · exact name_ne_of_lt before first second named others (congrArg some same)
  · exact name_ne_of_lt after second first others named (congrArg some same.symm)

/-- Aggregates of different types share a label and so the count. -/
theorem assignNames_distinct_structs :
    let table : VarTable := ⟨#[{ kind := .param, type := .invalid },
      { kind := .localVar, type := .aggregate [.int, .int] },
      { kind := .localVar, type := .aggregate [.float, .int] }]⟩
    ∃ name another, table.assignNames.get? 1 =
        some { kind := .localVar, type := .aggregate [.int, .int], name := some name } ∧
      table.assignNames.get? 2 =
        some { kind := .localVar, type := .aggregate [.float, .int], name := some another } ∧
      name ≠ another := by
  intro table
  have first : table.get? 1 = some { kind := .localVar, type := .aggregate [.int, .int] } := rfl
  have second : table.get? 2 = some { kind := .localVar, type := .aggregate [.float, .int] } := rfl
  exact assignNames_distinct first second (by decide) (by decide) (by decide)

end Table

end VarTable
end NwScript
