import NwScript.Proofs.DistinctNames
import NwScript.SourceProgram
import Mathlib.Data.List.Nodup

/-!
# Shared aggregates

The struct table counts every aggregate at every depth and names the ones that it has counted twice.  An
aggregate is counted after its members, and a type never contains itself, so a member has been counted
more often than what holds it at the moment that is counted.  Names are handed out at the second count,
which therefore comes to the members first: no definition refers to a later one.
-/

namespace NwScript

namespace Ty

mutual

/-- How often the aggregate of some members occurs in a type, at any depth. -/
def occurrences (wanted : List Ty) : Ty → Nat
  | .simple _ => 0
  | .aggregate members => occurrencesIn wanted members + if members = wanted then 1 else 0

/-- How often the aggregate of some members occurs in consecutive types, at any depth. -/
def occurrencesIn (wanted : List Ty) : List Ty → Nat
  | [] => 0
  | type :: types => type.occurrences wanted + occurrencesIn wanted types

end

mutual

/-- A type that is no larger than some members does not contain their aggregate. -/
theorem occurrences_of_sizeOf_le {wanted : List Ty} : (type : Ty) → sizeOf type ≤ sizeOf wanted →
    type.occurrences wanted = 0
  | .simple _, _ => rfl
  | .aggregate members, small => by
      have smaller : sizeOf members < sizeOf wanted := by
        simp only [aggregate.sizeOf_spec] at small
        omega
      have other : members ≠ wanted := fun same => Nat.lt_irrefl _ (same ▸ smaller)
      rw [occurrences, if_neg other, occurrencesIn_of_sizeOf_le members (Nat.le_of_lt smaller)]

theorem occurrencesIn_of_sizeOf_le {wanted : List Ty} : (types : List Ty) →
    sizeOf types ≤ sizeOf wanted → occurrencesIn wanted types = 0
  | [], _ => rfl
  | type :: types, small => by
      simp only [List.cons.sizeOf_spec] at small
      rw [occurrencesIn, occurrences_of_sizeOf_le type (by omega),
        occurrencesIn_of_sizeOf_le types (by omega)]

end

/-- No aggregate contains itself. -/
theorem occurrencesIn_self (members : List Ty) : occurrencesIn members members = 0 :=
  occurrencesIn_of_sizeOf_le members (Nat.le_refl _)

/-- An aggregate among some types occurs in them. -/
theorem occurrencesIn_pos {inner types : List Ty} (listed : .aggregate inner ∈ types) :
    0 < occurrencesIn inner types := by
  induction types with
  | nil => cases listed
  | cons type types induction =>
      rw [occurrencesIn]
      rcases List.mem_cons.mp listed with rfl | later
      · rw [occurrences, if_pos rfl]
        omega
      · exact Nat.add_pos_right _ (induction later)

end Ty

namespace StructTable

variable {table : StructTable} {members : List Ty}

/-- The table after the registration of some types, from first to last. -/
def ofTypes (types : List Ty) : StructTable :=
  types.foldl register empty

/-! ## One reference -/

theorem named_count (table : StructTable) (members : List Ty) :
    (table.count members).named =
      if table.countOf members = 1 then table.named ++ [members] else table.named := by
  rw [count]
  split <;> rename_i found
  · rw [found, if_neg Nat.zero_ne_one]
  · rw [found]
    exact if_congr (by omega) rfl rfl

/-- The table counts what it has met and hands out names at the second count, to members first. -/
structure IsSound (table : StructTable) : Prop where
  /-- An aggregate is entered when it is counted. -/
  entered : ∀ entry ∈ table.counts, 0 < entry.2
  /-- No aggregate has two names. -/
  nodup : table.named.Nodup
  /-- What has been counted twice has a name. -/
  mem_named : ∀ members, members ∈ table.named ↔ 2 ≤ table.countOf members
  /-- Members are counted at least as often as what holds them. -/
  inner_le : ∀ {outer inner : List Ty}, .aggregate inner ∈ outer →
    table.countOf outer ≤ table.countOf inner
  /-- Members are named before what holds them. -/
  inner_first : ∀ {outer inner : List Ty} {index : Nat}, table.named[index]? = some outer →
    .aggregate inner ∈ outer → ∃ earlier < index, table.named[earlier]? = some inner

theorem isSound_empty : IsSound empty where
  entered := by simp [empty]
  nodup := List.nodup_nil
  mem_named members := by simp [empty, countOf]
  inner_le _ := Nat.le_refl _
  inner_first found := by simp [empty] at found

theorem lookup_map_entry {counts : List (List Ty × Nat)} (changed : Nat) (other : List Ty) :
    (counts.map fun entry => if entry.1 = members then (members, changed) else entry).lookup other =
      if members = other then (counts.lookup other).map fun _ => changed else counts.lookup other := by
  induction counts with
  | nil => simp
  | cons entry counts induction =>
      obtain ⟨key, value⟩ := entry
      rw [List.map_cons, List.lookup_cons, List.lookup_cons, induction]
      by_cases here : other = key
      · subst here
        by_cases same : members = other
        · simp [same]
        · simp [same, Ne.symm same]
      · have past : (other == key) = false := beq_eq_false_iff_ne.mpr here
        by_cases first : key = members
        · subst first
          simp [past, Ne.symm here]
        · simp [past, first]

theorem IsSound.countOf_count (sound : table.IsSound) (members other : List Ty) :
    (table.count members).countOf other = table.countOf other + if members = other then 1 else 0 := by
  rw [count]
  split <;> rename_i found
  · have absent : table.counts.lookup members = none := by
      cases looked : table.counts.lookup members with
      | none => rfl
      | some value =>
          obtain ⟨front, back, split, -⟩ := List.lookup_eq_some_iff.mp looked
          have positive := sound.entered (members, value) (by simp [split])
          rw [countOf, looked] at found
          exact absurd found (Nat.ne_of_gt positive)
    simp only [countOf, List.lookup_append, List.lookup_cons, List.lookup_nil]
    by_cases same : members = other
    · subst same
      simp [absent]
    · simp [beq_false_of_ne (Ne.symm same), same]
  · simp only [countOf, lookup_map_entry]
    split <;> rename_i same
    · subst same
      rw [countOf] at found
      cases looked : table.counts.lookup members with
      | none => simp [looked] at found
      | some value =>
          simp only [looked, Option.getD_some] at found
          simp [found]
    · rfl

theorem entered_count (sound : table.IsSound) (members : List Ty) :
    ∀ entry ∈ (table.count members).counts, 0 < entry.2 := by
  intro entry listed
  rw [count] at listed
  split at listed
  · rcases List.mem_append.mp listed with old | new
    · exact sound.entered entry old
    · rw [List.mem_singleton.mp new]
      exact Nat.one_pos
  · obtain ⟨old, entered, rfl⟩ := List.mem_map.mp listed
    split
    · exact Nat.succ_pos _
    · exact sound.entered old entered

theorem IsSound.nodup_named_count (sound : table.IsSound) (members : List Ty) :
    (table.count members).named.Nodup := by
  rw [named_count]
  split
  · rename_i once
    have fresh : members ∉ table.named := fun named => by
      have twice := (sound.mem_named members).mp named
      omega
    exact List.nodup_append.mpr ⟨sound.nodup, List.nodup_singleton _, fun other old new same => by
      rintro rfl
      exact fresh (List.mem_singleton.mp same ▸ old)⟩
  · exact sound.nodup

theorem IsSound.mem_named_count (sound : table.IsSound) (members other : List Ty) :
    other ∈ (table.count members).named ↔ 2 ≤ (table.count members).countOf other := by
  rw [named_count, sound.countOf_count]
  have known := sound.mem_named other
  split
  · rename_i once
    rw [List.mem_append, List.mem_singleton, known]
    by_cases same : members = other
    · subst same
      simp [once]
    · simp [same, Ne.symm same]
  · rename_i often
    rw [known]
    split
    · rename_i same
      subst same
      omega
    · rfl

/-- When an aggregate is named, its members have been named before. -/
theorem IsSound.inner_first_count (sound : table.IsSound)
    (after : ∀ inner, .aggregate inner ∈ members → table.countOf members < table.countOf inner)
    {outer inner : List Ty} {index : Nat} (found : (table.count members).named[index]? = some outer)
    (inside : .aggregate inner ∈ outer) :
    ∃ earlier < index, (table.count members).named[earlier]? = some inner := by
  rw [named_count] at found ⊢
  split at found
  · rename_i once
    rw [if_pos once]
    rcases Nat.lt_or_ge index table.named.length with old | new
    · rw [List.getElem?_append_left old] at found
      obtain ⟨earlier, before, named⟩ := sound.inner_first found inside
      exact ⟨earlier, before, by rw [List.getElem?_append_left (Nat.lt_trans before old), named]⟩
    · rw [List.getElem?_append_right new] at found
      have last : members = outer := List.mem_singleton.mp (List.mem_of_getElem? found) |>.symm
      have twice : 2 ≤ table.countOf inner := by
        have more := after inner (last ▸ inside)
        omega
      obtain ⟨earlier, before, named⟩ := List.mem_iff_getElem.mp ((sound.mem_named inner).mpr twice)
      refine ⟨earlier, Nat.lt_of_lt_of_le before new, ?_⟩
      rw [List.getElem?_append_left before, List.getElem?_eq_getElem before, named]
  · rename_i often
    rw [if_neg often]
    exact sound.inner_first found inside

/-- A table stays sound when an aggregate is counted whose members have been counted once more. -/
theorem IsSound.count (sound : table.IsSound)
    (after : ∀ inner, .aggregate inner ∈ members → table.countOf members < table.countOf inner) :
    (table.count members).IsSound where
  entered := entered_count sound members
  nodup := sound.nodup_named_count members
  mem_named := sound.mem_named_count members
  inner_le {outer inner} inside := by
    rw [sound.countOf_count, sound.countOf_count]
    have old := sound.inner_le inside
    by_cases same : members = outer
    · subst same
      have more := after inner inside
      split <;> split <;> omega
    · rw [if_neg same]
      omega
  inner_first := sound.inner_first_count after

/-! ## Registration -/

/-- A table counts on for some types: it stays sound, its names stay, and every aggregate is counted
once for each of its occurrences. -/
structure CountsOn (before after : StructTable) (types : List Ty) : Prop where
  sound : after.IsSound
  kept : before.named <+: after.named
  counted : ∀ members, after.countOf members = before.countOf members + Ty.occurrencesIn members types

theorem CountsOn.trans {before middle after : StructTable} {first last : List Ty}
    (start : CountsOn before middle first) (rest : CountsOn middle after last) :
    CountsOn before after (first ++ last) where
  sound := rest.sound
  kept := start.kept.trans rest.kept
  counted members := by
    have sum : ∀ types, Ty.occurrencesIn members (types ++ last) =
        Ty.occurrencesIn members types + Ty.occurrencesIn members last := by
      intro types
      induction types with
      | nil => exact (Nat.zero_add _).symm
      | cons type types induction =>
          rw [List.cons_append, Ty.occurrencesIn, Ty.occurrencesIn, induction, Nat.add_assoc]
    rw [rest.counted, start.counted, sum, Nat.add_assoc]

mutual

theorem countsOn_register {table : StructTable} (sound : table.IsSound) :
    (type : Ty) → CountsOn table (table.register type) [type]
  | .simple _ => ⟨sound, List.prefix_refl _, fun _ => rfl⟩
  | .aggregate members => by
      obtain ⟨inside, kept, counted⟩ := countsOn_registerAll sound members
      have after : ∀ inner, .aggregate inner ∈ members →
          (table.registerAll members).countOf members < (table.registerAll members).countOf inner := by
        intro inner listed
        have least := sound.inner_le listed
        have once := Ty.occurrencesIn_pos listed
        rw [counted, counted, Ty.occurrencesIn_self]
        omega
      refine ⟨inside.count after, ?_, fun wanted => ?_⟩
      · rw [register, named_count]
        split
        · exact kept.trans (List.prefix_append _ _)
        · exact kept
      · rw [register, inside.countOf_count, counted]
        exact Nat.add_assoc _ _ _

theorem countsOn_registerAll {table : StructTable} (sound : table.IsSound) :
    (types : List Ty) → CountsOn table (table.registerAll types) types
  | [] => ⟨sound, List.prefix_refl _, fun _ => rfl⟩
  | type :: types => by
      have first := countsOn_register sound type
      exact first.trans (countsOn_registerAll first.sound types)

end

theorem registerAll_eq_foldl (table : StructTable) (types : List Ty) :
    table.registerAll types = types.foldl register table := by
  induction types generalizing table with
  | nil => rfl
  | cons type types induction => exact induction _

theorem countsOn_foldl (sound : table.IsSound) (types : List Ty) :
    CountsOn table (types.foldl register table) types :=
  registerAll_eq_foldl table types ▸ countsOn_registerAll sound types

theorem countsOn_ofTypes (types : List Ty) : CountsOn empty (ofTypes types) types :=
  countsOn_foldl isSound_empty types

/-! ## Names -/

theorem nameOfNumber_injective : Function.Injective nameOfNumber := by
  intro first second same
  exact eq_of_toString_eq ((String.append_right_inj _).mp same)

theorem getElem?_definitions (table : StructTable) (index : Nat) :
    table.definitions[index]? = table.named[index]?.map (nameOfNumber (index + 1), ·) :=
  List.getElem?_mapIdx

theorem getElem?_definitions_eq_some_iff {index : Nat} {name : String} :
    table.definitions[index]? = some (name, members) ↔
      table.named[index]? = some members ∧ nameOfNumber (index + 1) = name := by
  rw [getElem?_definitions, Option.map_eq_some_iff]
  constructor
  · rintro ⟨_, found, same⟩
    obtain ⟨named, rfl⟩ := Prod.mk.inj same
    exact ⟨found, named⟩
  · rintro ⟨found, rfl⟩
    exact ⟨members, found, rfl⟩

/-- A name is the number of its definition. -/
theorem IsSound.name?_eq_some_iff (sound : table.IsSound) {name : String} :
    table.name? (.aggregate members) = some name ↔
      ∃ index : Nat, table.definitions[index]? = some (name, members) := by
  rw [name?, Option.map_eq_some_iff]
  refine exists_congr fun index => ?_
  rw [getElem?_definitions_eq_some_iff, List.idxOf?_eq_some_iff, List.getElem?_eq_some_iff]
  refine and_congr_left fun _ => exists_congr fun inside => and_iff_left_of_imp ?_
  intro found earlier before again
  exact Nat.ne_of_lt before ((List.Nodup.getElem_inj_iff sound.nodup).mp (again.trans found.symm))

theorem isSome_name? (table : StructTable) (members : List Ty) :
    (table.name? (.aggregate members)).isSome ↔ members ∈ table.named := by
  rw [name?, Option.isSome_map, List.isSome_idxOf?]

/-- An aggregate that a definition mentions has been defined before. -/
theorem IsSound.defined_before (sound : table.IsSound) {index : Nat} {name : String} {inner : List Ty}
    (defined : table.definitions[index]? = some (name, members)) (inside : .aggregate inner ∈ members) :
    ∃ earlier < index, ∃ innerName, table.definitions[earlier]? = some (innerName, inner) := by
  obtain ⟨named, -⟩ := getElem?_definitions_eq_some_iff.mp defined
  obtain ⟨earlier, before, found⟩ := sound.inner_first named inside
  exact ⟨earlier, before, _, getElem?_definitions_eq_some_iff.mpr ⟨found, rfl⟩⟩

theorem map_fst_definitions (table : StructTable) :
    table.definitions.map Prod.fst =
      (List.range table.definitions.length).map fun index => nameOfNumber (index + 1) := by
  refine List.ext_getElem? fun index => ?_
  rw [List.getElem?_map, List.getElem?_map, getElem?_definitions]
  rcases Nat.lt_or_ge index table.named.length with inside | outside
  · rw [List.getElem?_eq_getElem inside, List.getElem?_range (by simpa [definitions] using inside)]
    rfl
  · rw [List.getElem?_eq_none outside, List.getElem?_eq_none (by simpa [definitions] using outside)]
    rfl

/-- The table gives a name to one type only. -/
theorem IsSound.eq_of_name? (sound : table.IsSound) {first second : Ty} {name : String}
    (named : table.name? first = some name) (also : table.name? second = some name) :
    first = second := by
  cases first with
  | simple => cases named
  | aggregate members =>
      cases second with
      | simple => cases also
      | aggregate others =>
          obtain ⟨index, defined⟩ := sound.name?_eq_some_iff.mp named
          obtain ⟨other, redefined⟩ := sound.name?_eq_some_iff.mp also
          obtain ⟨here, rfl⟩ := getElem?_definitions_eq_some_iff.mp defined
          obtain ⟨there, same⟩ := getElem?_definitions_eq_some_iff.mp redefined
          obtain rfl := Nat.succ.inj (nameOfNumber_injective same)
          rw [Option.some.inj (here.symm.trans there)]

/-- A type keeps its name while the table counts on. -/
theorem CountsOn.name?_kept {after : StructTable} {types : List Ty} (counts : CountsOn table after types)
    (sound : table.IsSound) {type : Ty} {name : String} (named : table.name? type = some name) :
    after.name? type = some name := by
  cases type with
  | simple => cases named
  | aggregate members =>
      obtain ⟨index, defined⟩ := sound.name?_eq_some_iff.mp named
      obtain ⟨here, rfl⟩ := getElem?_definitions_eq_some_iff.mp defined
      refine counts.sound.name?_eq_some_iff.mpr
        ⟨index, getElem?_definitions_eq_some_iff.mpr ⟨?_, rfl⟩⟩
      exact (List.prefix_iff_getElem?.mp counts.kept index (List.getElem?_eq_some_iff.mp here).1).trans
        ((List.getElem?_eq_getElem _).symm.trans here)

/-- What a table says about the types that were registered in it. -/
structure Describes (table : StructTable) (types : List Ty) : Prop where
  /-- The references of an aggregate are its occurrences at any depth. -/
  references_eq : ∀ members, table.references (.aggregate members) = Ty.occurrencesIn members types
  /-- What is referred to twice has a name. -/
  named_iff : ∀ type, (table.name? type).isSome ↔ 2 ≤ table.references type
  /-- The definitions are listed in the order of their numbers, from one on. -/
  numbered : table.definitions.map Prod.fst =
    (List.range table.definitions.length).map fun index => nameOfNumber (index + 1)
  /-- The definitions are those of the named aggregates. -/
  mem_definitions : ∀ name members,
    (name, members) ∈ table.definitions ↔ table.name? (.aggregate members) = some name
  /-- No name is given twice. -/
  name?_inj : ∀ first second name, table.name? first = some name → table.name? second = some name →
    first = second
  /-- Later registrations change no name. -/
  name?_kept : ∀ (later : List Ty) type name, table.name? type = some name →
    (later.foldl register table).name? type = some name
  /-- The aggregates of a definition are defined before. -/
  backward : ∀ (index : Nat) name members (inner : List Ty), table.definitions[index]? = some (name, members) →
    .aggregate inner ∈ members →
    ∃ earlier < index, ∃ innerName, table.definitions[earlier]? = some (innerName, inner)

theorem describes_ofTypes (types : List Ty) : (ofTypes types).Describes types := by
  obtain ⟨sound, -, counted⟩ := countsOn_ofTypes types
  exact
    { references_eq := fun members => (counted members).trans (Nat.zero_add _)
      named_iff := fun type => by
        cases type with
        | simple code => simp [name?, references]
        | aggregate members => exact (isSome_name? _ members).trans (sound.mem_named members)
      numbered := map_fst_definitions _
      mem_definitions := fun name members => by
        rw [sound.name?_eq_some_iff, List.mem_iff_getElem?]
      name?_inj := fun _ _ _ => sound.eq_of_name?
      name?_kept := fun later _ _ => (countsOn_foldl sound later).name?_kept sound
      backward := fun _ _ _ _ => sound.defined_before }

example :
    let pair := Ty.aggregate [.int, .int]
    let tagged := Ty.aggregate [.string, pair]
    (ofTypes [tagged, .aggregate [.object, tagged], pair]).definitions =
      [("structtype1", [.int, .int]), ("structtype2", [.string, pair])] := by
  cbv

/-! ## Definitions of a program -/

/-- The aggregates of a decompiled program are those of types registered in some order. -/
theorem exists_ofTypes_of_decompile {program : Program} {catalog : ActionCatalog} {settings : Settings}
    {source : SourceProgram} (decompiled : program.decompile catalog settings = .ok source) :
    ∃ types, source.structs = ofTypes types := by
  rw [Program.decompile] at decompiled
  cases analyzed : Analysis.ofProgram program catalog settings with
  | error fault =>
      rw [analyzed] at decompiled
      cases decompiled
  | ok analysis =>
      rw [analyzed] at decompiled
      simp only [bind, Except.bind] at decompiled
      split at decompiled
      · cases decompiled
      · cases decompiled
        exact ⟨_, rfl⟩

/-- Struct naming is sound for every sequence of registrations: references are occurrences, two of them
give a name, names are numbered, distinct and lasting, and definitions only refer backward.  So a field of
a definition in a decompiled program is a simple type or spells a struct that is defined before. -/
theorem names_describe_types :
    (∀ types, (ofTypes types).Describes types) ∧
      ∀ (program : Program) (catalog : ActionCatalog) (settings : Settings) (source : SourceProgram),
        program.decompile catalog settings = .ok source →
        ∀ (index : Nat) name members, source.structs.definitions[index]? = some (name, members) →
        ∀ member ∈ members, (∃ code, member = .simple code) ∨
          ∃ earlier < index, ∃ innerName inner,
            source.structs.definitions[earlier]? = some (innerName, inner) ∧ member = .aggregate inner ∧
              source.structs.spell member = "struct " ++ innerName := by
  refine ⟨describes_ofTypes, ?_⟩
  intro program catalog settings source decompiled index name members defined member listed
  obtain ⟨types, registered⟩ := exists_ofTypes_of_decompile decompiled
  rw [registered] at defined ⊢
  cases member with
  | simple code => exact .inl ⟨code, rfl⟩
  | aggregate inner =>
      have describes := describes_ofTypes types
      obtain ⟨earlier, before, innerName, found⟩ := describes.backward _ _ _ _ defined listed
      have named : (ofTypes types).name? (.aggregate inner) = some innerName :=
        (describes.mem_definitions _ _).mp (List.mem_of_getElem? found)
      exact .inr ⟨earlier, before, innerName, inner, found, rfl, by rw [spell, named]⟩

end StructTable
end NwScript
