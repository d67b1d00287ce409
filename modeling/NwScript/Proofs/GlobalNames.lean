import NwScript.Proofs.CleanedStatements
import NwScript.Proofs.DistinctNames

/-!
# Names of globals

A function has one variable for each global slot, created before all others, and the initializer has
one for each declaration.  Both are named by their types and by how many globals with a name of the
same type come before them.  So a slot has one name exactly if these numbers agree, which vectors,
other aggregates and slots that the initializer discards prevent.
-/

namespace NwScript

namespace VarTable

/-- Variables of a function with a declaration are no globals, nor are their members. -/
structure DeclaresNoGlobals (table : VarTable) : Prop where
  /-- Members are variables without members. -/
  flat : table.IsFlat
  /-- Declared variables and their members are no globals. -/
  own : ∀ {id : VarId} {declaration : NodeId}, table.declaration? id = some declaration →
    table.kind id ≠ .global ∧ ∀ member ∈ table.members id, table.kind member ≠ .global

/-- Globals stay globals of their types. -/
structure GlobalsStay (before after : VarTable) : Prop where
  /-- No variable is lost. -/
  size : before.size ≤ after.size
  /-- Globals stay. -/
  global : ∀ {id : VarId} {old : Variable}, before.get? id = some old → old.kind = .global →
    ∃ entry, after.get? id = some entry ∧ entry.kind = .global ∧ entry.type = old.type

theorem GlobalsStay.refl (table : VarTable) : table.GlobalsStay table :=
  ⟨Nat.le_refl _, fun found global => ⟨_, found, global, rfl⟩⟩

theorem GlobalsStay.trans {before middle after : VarTable} (first : before.GlobalsStay middle)
    (second : middle.GlobalsStay after) : before.GlobalsStay after := by
  refine ⟨Nat.le_trans first.size second.size, fun {id old} found global => ?_⟩
  obtain ⟨between, known, still, type⟩ := first.global found global
  obtain ⟨entry, there, last, same⟩ := second.global known still
  exact ⟨entry, there, last, same.trans type⟩

theorem kind_of_get? {table : VarTable} {id : VarId} {entry : Variable}
    (found : table.get? id = some entry) : table.kind id = entry.kind := by
  rw [kind, found]

theorem get?_foldl_modify_of_not_mem (change : Variable → Variable) {ids : List VarId} {id : VarId}
    (absent : id ∉ ids) (table : VarTable) :
    (ids.foldl (fun table id => table.modify id change) table).get? id = table.get? id := by
  induction ids generalizing table with
  | nil => rfl
  | cons other ids induction =>
      obtain ⟨different, behind⟩ := not_or.mp (mt List.mem_cons.mpr absent)
      rw [List.foldl_cons, induction behind, get?_modify, if_neg (Ne.symm different)]

end VarTable

namespace ScriptTree

open VarTable

section Edits

/-- What a change of the variables of a function leaves of one of them. -/
structure Ages (table : VarTable) (id : VarId) (old entry : Variable) : Prop where
  /-- The type stays. -/
  type : entry.type = old.type
  /-- Members stay. -/
  members : entry.members = old.members
  /-- The class stays, unless a variable that is no global becomes intermediate. -/
  kind : entry.kind = old.kind ∨ entry.kind = .temp ∧ old.kind ≠ .global
  /-- It was declared before, or it is a local. -/
  declared : ∀ declaration, entry.declaration = some declaration →
    old.declaration ≠ none ∨ table.IsLocal id

variable {catalog : ActionCatalog} {tree before after : ScriptTree} {vars : VarTable} {id : VarId}
  {entry old : Variable}

theorem Ages.of_same (type : entry.type = old.type) (members : entry.members = old.members)
    (kind : entry.kind = old.kind) (declaration : entry.declaration = old.declaration) :
    Ages vars id old entry := by
  refine ⟨type, members, .inl kind, fun found here => .inl ?_⟩
  rw [← declaration, here]
  exact Option.some_ne_none found

/-- One variable changes. -/
theorem ages_of_modify {var : VarId} {change : Variable → Variable}
    (found : (vars.modify var change).get? id = some entry)
    (kept : ∀ old, Ages vars var old (change old)) :
    ∃ old, vars.get? id = some old ∧ Ages vars id old entry := by
  rw [get?_modify] at found
  split at found
  · rename_i here
    obtain ⟨old, known, rfl⟩ := Option.map_eq_some_iff.mp found
    exact ⟨old, known, here ▸ kept old⟩
  · exact ⟨entry, found, .of_same rfl rfl rfl rfl⟩

/-- A declared variable and its members become intermediate, none of which is a global. -/
theorem ages_of_discard {var : VarId} (plain : vars.DeclaresNoGlobals)
    (declared : vars.declaration? var ≠ none)
    (found : ((var :: vars.members var).foldl (fun table id => table.modify id fun entry =>
      { entry with kind := .temp, declaration := none, consumed := true }) vars).get? id =
        some entry) :
    ∃ old, vars.get? id = some old ∧ Ages vars id old entry := by
  by_cases listed : id ∈ var :: vars.members var
  · obtain ⟨declaration, there⟩ := Option.ne_none_iff_exists'.mp declared
    obtain ⟨own, members⟩ := plain.own there
    have other : vars.kind id ≠ .global := by
      rcases List.mem_cons.mp listed with rfl | member
      · exact own
      · exact members id member
    obtain ⟨old, known, type, members, kind, declaration⟩ := exists_of_foldl_modify
      (fun old entry => entry.type = old.type ∧ entry.members = old.members ∧
        (entry.kind = old.kind ∨ entry.kind = .temp) ∧
        (entry.declaration = old.declaration ∨ entry.declaration = none))
      (fun _ => ⟨rfl, rfl, .inl rfl, .inl rfl⟩)
      (by
        rintro first second ⟨type, members, _, _⟩
        exact ⟨type, members, .inr rfl, .inr rfl⟩) _ found
    rw [kind_of_get? known] at other
    refine ⟨old, known, type, members, kind.imp_right fun temp => ⟨temp, other⟩, ?_⟩
    intro here some_declared
    rcases declaration with same | gone
    · exact .inl (by rw [← same, some_declared]; exact Option.some_ne_none here)
    · cases gone.symm.trans some_declared
  · rw [get?_foldl_modify_of_not_mem _ listed] at found
    exact ⟨entry, found, .of_same rfl rfl rfl rfl⟩

theorem VarEdit.ages (edit : VarEdit catalog tree vars) (function : tree.kind = .function)
    (plain : tree.vars.DeclaresNoGlobals) (found : vars.get? id = some entry) :
    (∃ old, tree.vars.get? id = some old ∧ Ages tree.vars id old entry) ∨
      id = tree.vars.size ∧ entry.declaration = none := by
  cases edit with
  | @add new values undeclared free single =>
      rw [get?_add] at found
      split at found
      · cases found
        exact .inr ⟨‹_›, undeclared⟩
      · exact .inl ⟨entry, found, .of_same rfl rfl rfl rfl⟩
  | aggregate leaves =>
      obtain ⟨old, parent, rfl, known | ⟨here, _, undeclared, _⟩⟩ := exists_of_aggregate found
      · exact .inl ⟨old, known, .of_same rfl rfl rfl rfl⟩
      · exact .inr ⟨here, undeclared⟩
  | @revalue var change kept =>
      refine .inl (ages_of_modify found fun old => ?_)
      obtain ⟨_, _, same, _⟩ := kept old
      rw [same]
      exact .of_same rfl rfl rfl rfl
  | declare declares isLocal =>
      exact .inl (ages_of_modify found
        fun _ => ⟨rfl, rfl, .inl rfl, fun _ _ => .inr (isLocal function)⟩)
  | undeclare var =>
      exact .inl (ages_of_modify found
        fun _ => ⟨rfl, rfl, .inl rfl, fun _ none_declared => by cases none_declared⟩)
  | discard declared => exact .inl (ages_of_discard plain declared found)

/-- In a function no change of the variables makes anything else of a global. -/
theorem VarEdit.globalsStay (edit : VarEdit catalog tree vars) (function : tree.kind = .function)
    (plain : tree.vars.DeclaresNoGlobals) :
    tree.vars.GlobalsStay vars ∧ vars.DeclaresNoGlobals := by
  have aged : ∀ {id old}, tree.vars.get? id = some old →
      ∃ entry, vars.get? id = some entry ∧ Ages tree.vars id old entry := by
    intro id old known
    have inside := lt_of_get? known
    obtain ⟨entry, found⟩ := exists_of_lt (Nat.lt_of_lt_of_le inside edit.size_le)
    rcases edit.ages function plain found with ⟨other, same, ages⟩ | ⟨new, _⟩
    · obtain rfl := Option.some.inj (known.symm.trans same)
      exact ⟨entry, found, ages⟩
    · exact absurd inside (Nat.not_lt.mpr (Nat.le_of_eq new.symm))
  have other : ∀ {id old}, tree.vars.get? id = some old → tree.vars.kind id ≠ .global →
      vars.kind id ≠ .global := by
    intro id old known different
    obtain ⟨entry, found, ages⟩ := aged known
    rw [kind_of_get? known] at different
    rw [kind_of_get? found]
    rcases ages.kind with same | ⟨temp, _⟩
    · rwa [same]
    · rw [temp]
      exact VarKind.noConfusion
  refine ⟨⟨edit.size_le, fun {id old} known global => ?_⟩, edit.isFlat plain.flat,
    fun {id declaration} declared => ?_⟩
  · obtain ⟨entry, found, ages⟩ := aged known
    refine ⟨entry, found, ?_, ages.type⟩
    rcases ages.kind with same | ⟨_, different⟩
    · exact same.trans global
    · exact absurd global different
  · obtain ⟨entry, found, there⟩ := Option.bind_eq_some_iff.mp declared
    rcases edit.ages function plain found with ⟨old, known, ages⟩ | ⟨_, undeclared⟩
    swap
    · cases undeclared.symm.trans there
    have former : tree.vars.kind id ≠ .global ∧
        ∀ member ∈ tree.vars.members id, tree.vars.kind member ≠ .global := by
      rcases ages.declared declaration there with before | isLocal
      · obtain ⟨earlier, here⟩ := Option.ne_none_iff_exists'.mp before
        exact plain.own (by rw [declaration?, known]; exact here)
      · refine ⟨?_, fun member listed => ?_⟩
        · rw [isLocal.1]
          exact VarKind.noConfusion
        · rw [isLocal.2 member listed]
          exact VarKind.noConfusion
    refine ⟨other known former.1, fun member listed => ?_⟩
    rw [members_of_get? found, ages.members, ← members_of_get? known] at listed
    obtain ⟨entry, inside⟩ := exists_of_lt (plain.flat listed).1
    exact other inside (former.2 member listed)

/-- In a function no change of the tree makes anything else of a global. -/
theorem Edit.globalsStay (edit : Edit catalog before after) (function : before.kind = .function)
    (plain : before.vars.DeclaresNoGlobals) :
    before.vars.GlobalsStay after.vars ∧ after.vars.DeclaresNoGlobals := by
  rcases edit.vars_cases with edit | same
  · exact edit.globalsStay function plain
  · rw [same]
    exact ⟨.refl _, plain⟩

theorem Edits.globalsStay (edits : Edits catalog before after) (function : before.kind = .function)
    (plain : before.vars.DeclaresNoGlobals) :
    before.vars.GlobalsStay after.vars ∧ after.vars.DeclaresNoGlobals := by
  induction edits with
  | refl => exact ⟨.refl _, plain⟩
  | tail former edit induction =>
      have kind := (Edits.isExtension former).kind.trans function
      obtain ⟨later, still⟩ := edit.globalsStay kind induction.2
      exact ⟨induction.1.trans later, still⟩

end Edits

end ScriptTree

section Playing

open VarTable ScriptTree

variable {terms : Terms} {before after : Recovery} {id : Nat} {ids : List Nat}

theorem Move.globalsStay (move : Move terms before after) (function : before.tree.kind = .function)
    (plain : before.tree.vars.DeclaresNoGlobals) :
    before.tree.vars.GlobalsStay after.tree.vars ∧ after.tree.vars.DeclaresNoGlobals := by
  rcases move.vars_cases with edit | same
  · exact edit.globalsStay function plain
  · rw [same]
    exact ⟨.refl _, plain⟩

/-- Throughout the recovery of a function globals are what they were. -/
theorem Plays.globalsStay (plays : Plays terms before ids after)
    (function : before.tree.kind = .function) (plain : before.tree.vars.DeclaresNoGlobals) :
    before.tree.vars.GlobalsStay after.tree.vars ∧ after.tree.vars.DeclaresNoGlobals := by
  induction plays with
  | refl => exact ⟨.refl _, plain⟩
  | move former move induction =>
      obtain ⟨later, still⟩ := move.globalsStay (former.isExtension.kind.trans function) induction.2
      exact ⟨induction.1.trans later, still⟩
  | command former commands induction =>
      rw [commands.vars]
      exact induction

theorem Plays.globals (plays : Plays terms before ids after) : after.globals = before.globals := by
  induction plays with
  | refl => rfl
  | move former move induction =>
      rw [← induction]
      cases move with
      | note tree scopes globals => exact globals
      | _ => rfl
  | command former commands induction =>
      obtain ⟨_, _, _, rfl⟩ := commands.added
      exact induction

end Playing

namespace RecoveryInput

open VarTable ScriptTree

variable {input : RecoveryInput} {sub : Nat}

theorem addVars_spec (kind : VarKind) (vars : VarTable) (types : List Ty) :
    (Frame.addVars kind vars types).1.vars.toList =
        vars.vars.toList ++ types.map (fun type => ({ kind, type } : Variable)) ∧
      (Frame.addVars kind vars types).2 = List.range' vars.size types.length := by
  induction types generalizing vars with
  | nil => simp [Frame.addVars]
  | cons type types induction =>
      obtain ⟨entries, ids⟩ := induction (vars.add { kind, type }).1
      refine ⟨?_, ?_⟩
      · rw [Frame.addVars]
        refine entries.trans ?_
        simp [VarTable.add]
      · rw [Frame.addVars, List.length_cons, List.range'_succ]
        exact congrArg (vars.size :: ·) (ids.trans (by rw [VarTable.size_add]))

/-- A function begins with one variable for each global slot. -/
theorem globalTree_get? (input : RecoveryInput) (sub slot : Nat) :
    (input.globalTree sub).vars.get? slot =
      input.globals[slot]?.map fun type => { kind := .global, type } := by
  obtain ⟨entries, _⟩ := addVars_spec .global (input.emptyTree sub).vars input.globals
  rw [VarTable.get?, ← Array.getElem?_toList]
  refine (congrArg (·[slot]?) entries).trans ?_
  rw [← List.getElem?_map]
  rfl

theorem globalTree_declaresNoGlobals (input : RecoveryInput) (sub : Nat) :
    (input.globalTree sub).vars.DeclaresNoGlobals where
  flat := by
    intro id member listed
    obtain ⟨entry, found, there⟩ := exists_of_mem_members listed
    rw [globalTree_get?] at found
    obtain ⟨type, _, rfl⟩ := Option.map_eq_some_iff.mp found
    exact absurd there List.not_mem_nil
  own := by
    intro id declaration declared
    obtain ⟨entry, found, there⟩ := Option.bind_eq_some_iff.mp declared
    rw [globalTree_get?] at found
    obtain ⟨type, _, rfl⟩ := Option.map_eq_some_iff.mp found
    cases there

/-- In the end the variables of the global slots are still globals of their types, and copies relative
to the base pointer address them. -/
theorem run_globals (function : input.kind sub = .function) {last : Recovery}
    (recovered : input.run sub = .ok last) :
    last.globals = List.range input.globals.length ∧
      ∀ (slot : Nat) (type : Ty), input.globals[slot]? = some type →
        ∃ entry, last.tree.vars.get? slot = some entry ∧ entry.kind = .global ∧ entry.type = type := by
  have plays := run_plays function recovered
  obtain ⟨vars, slots, signature, frame, same⟩ := input.start_eq_function function
  have kind : (input.emptyTree sub).kind = .function := function
  have plain := input.globalTree_declaresNoGlobals sub
  obtain ⟨framed, still⟩ := frame.edits.globalsStay kind plain
  have begun : (input.globalTree sub).vars.GlobalsStay (input.start sub).tree.vars ∧
      (input.start sub).tree.vars.DeclaresNoGlobals := by
    rw [same]
    exact ⟨framed, still⟩
  have starts : (input.start sub).tree.kind = .function := by
    rw [same]
    exact kind
  obtain ⟨played, _⟩ := plays.globalsStay starts begun.2
  have stay := begun.1.trans played
  refine ⟨?_, fun slot type known => ?_⟩
  · rw [plays.globals, same, List.range_eq_range']
    exact (addVars_spec .global (input.emptyTree sub).vars input.globals).2
  · have begins : (input.globalTree sub).vars.get? slot = some { kind := .global, type } := by
      rw [globalTree_get?, known, Option.map_some]
    exact stay.global begins rfl

end RecoveryInput

namespace VarTable

/-- A global with a name of its own. -/
def IsNamedGlobal (entry : Variable) : Prop :=
  entry.kind = .global ∧ entry.parent = none

instance (entry : Variable) : Decidable (IsNamedGlobal entry) :=
  inferInstanceAs (Decidable (_ ∧ _))

/-- Spelled types of the globals with names of their own among some first variables. -/
def globalSpellings (table : VarTable) (id : VarId) : List String :=
  ((table.vars.toList.take id).filter fun entry => IsNamedGlobal entry).map fun entry =>
    typePart entry.type

namespace Naming

variable {naming : Naming} {entry : Variable} {entries : List Variable} {spelling : String}

/-- The spelling of globals. -/
abbrev globalKey (spelling : String) : String × String :=
  (spelling, kindPart .global)

/-- Only globals with names of their own count as such. -/
theorem used_name_global (naming : Naming) (entry : Variable) (spelling : String) :
    (naming.name entry).2.used (globalKey spelling) = naming.used (globalKey spelling) +
      if IsNamedGlobal entry ∧ typePart entry.type = spelling then 1 else 0 := by
  have counts : (IsNamed entry ∧ isUntyped entry = false ∧ globalKey spelling = key entry) ↔
      IsNamedGlobal entry ∧ typePart entry.type = spelling := by
    rw [key, Prod.mk.injEq]
    constructor
    · rintro ⟨⟨not_temp, not_ret, free⟩, _, types, classes⟩
      refine ⟨⟨?_, free⟩, types.symm⟩
      cases kind : entry.kind with
      | global => rfl
      | temp => exact absurd kind not_temp
      | ret => exact absurd kind not_ret
      | param => exact absurd (kind ▸ classes) (by decide)
      | localVar => exact absurd (kind ▸ classes) (by decide)
    · rintro ⟨⟨global, free⟩, types⟩
      exact ⟨⟨by simp [global], by simp [global], free⟩, by simp [isUntyped, global], types.symm,
        congrArg kindPart global.symm⟩
  rw [used_name]
  simp only [counts]

theorem used_behind_global (naming : Naming) (entries : List Variable) (spelling : String) :
    (naming.behind entries).used (globalKey spelling) = naming.used (globalKey spelling) +
      ((entries.filter fun entry => IsNamedGlobal entry).map fun entry =>
        typePart entry.type).count spelling := by
  induction entries generalizing naming with
  | nil => rfl
  | cons entry entries induction =>
      refine (induction (naming.name entry).2).trans ?_
      rw [used_name_global, List.filter_cons]
      by_cases named : IsNamedGlobal entry
      · rw [if_pos (decide_eq_true named), List.map_cons, List.count_cons]
        by_cases same : typePart entry.type = spelling <;> simp [named, same]
        omega
      · rw [if_neg (by simp [named])]
        simp [named]

theorem name_global (naming : Naming) (named : IsNamedGlobal entry) :
    (naming.name entry).1.name = some (typePart entry.type ++ kindPart .global ++
      toString (naming.used (globalKey (typePart entry.type)) + 1)) := by
  obtain ⟨global, free⟩ := named
  have typed : ¬(isUntyped entry = true) := by simp [isUntyped, global]
  rw [name_of_isNamed naming ⟨by simp [global], by simp [global], free⟩, label, if_neg typed, next,
    if_neg typed, key, global]

end Naming

/-- The number of a global among those whose types are spelled alike. -/
def globalNumber (table : VarTable) (id : VarId) : Nat :=
  (table.globalSpellings id).count (typePart (table.type id)) + 1

/-- A global with a name of its own is named by its type and its number. -/
theorem name_assignNames_global {table : VarTable} {id : VarId} {entry : Variable}
    (found : table.get? id = some entry) (named : IsNamedGlobal entry) :
    ∃ later, table.assignNames.get? id = some later ∧ later.parent = none ∧
      later.name = some (typePart entry.type ++ "Global" ++ toString (table.globalNumber id)) := by
  obtain ⟨name, same⟩ := (table.namedBefore id).exists_name_eq entry
  refine ⟨_, by rw [get?_assignNames, found, Option.map_some], ?_, ?_⟩
  · rw [same]
    exact named.2
  · have type : table.type id = entry.type := by rw [VarTable.type, found]
    rw [Naming.name_global _ named, globalNumber, type]
    have number : (table.namedBefore id).used (Naming.globalKey (typePart entry.type)) =
        (table.globalSpellings id).count (typePart entry.type) := by
      rw [namedBefore, Naming.used_behind_global, globalSpellings]
      exact Nat.zero_add _
    rw [number]
    rfl

theorem globalSpellings_assignNames (table : VarTable) :
    table.assignNames.globalSpellings = table.globalSpellings := by
  have named : ∀ (entries : List Variable) (naming : Naming) (count : Nat),
      (((naming.nameAll entries).take count).filter fun entry => IsNamedGlobal entry).map
          (fun entry => typePart entry.type) =
        ((entries.take count).filter fun entry => IsNamedGlobal entry).map
          fun entry => typePart entry.type := by
    intro entries
    induction entries with
    | nil => exact fun _ _ => rfl
    | cons entry entries induction =>
        intro naming count
        cases count with
        | zero => rfl
        | succ count =>
            obtain ⟨name, same⟩ := naming.exists_name_eq entry
            have behind := induction (naming.name entry).2 count
            rw [Naming.nameAll, List.take_succ_cons, List.take_succ_cons, List.filter_cons,
              List.filter_cons, same]
            have alike : IsNamedGlobal { entry with name } ↔ IsNamedGlobal entry := Iff.rfl
            by_cases global : IsNamedGlobal entry
            · rw [if_pos (decide_eq_true (alike.mpr global)), if_pos (decide_eq_true global),
                List.map_cons, List.map_cons, behind]
            · rw [if_neg (by simpa using mt alike.mp global), if_neg (by simpa using global), behind]
  funext id
  rw [globalSpellings, globalSpellings, assignNames, List.toList_toArray]
  exact named _ _ _

/-- A variable of a table with names has the class, type and aggregate that it had before. -/
theorem exists_of_assignNames {table : VarTable} {id : VarId} {later : Variable}
    (found : table.assignNames.get? id = some later) :
    ∃ entry, table.get? id = some entry ∧ later.kind = entry.kind ∧ later.type = entry.type ∧
      later.parent = entry.parent := by
  rw [get?_assignNames] at found
  obtain ⟨entry, known, rfl⟩ := Option.map_eq_some_iff.mp found
  obtain ⟨name, same⟩ := (table.namedBefore id).exists_name_eq entry
  exact ⟨entry, known, by rw [same], by rw [same], by rw [same]⟩

end VarTable

namespace RecoveryInput

open VarTable ScriptTree

variable {input : RecoveryInput} {sub : Nat}

theorem vars_finish (input : RecoveryInput) (tree : ScriptTree) :
    (input.finish tree).vars = tree.vars.assignNames := by
  unfold finish
  dsimp only
  split
  · rw [omitDefaults_eq_nodes]
  · rfl

/-- The source name of a global in a finished tree. -/
theorem varName_finish_global {tree : ScriptTree} {id : VarId} {entry : Variable}
    (found : tree.vars.get? id = some entry) (named : IsNamedGlobal entry) :
    (input.finish tree).varName id =
      typePart entry.type ++ "Global" ++ toString (tree.vars.globalNumber id) := by
  obtain ⟨later, there, free, name⟩ := name_assignNames_global found named
  rw [varName, varNameFrom.eq_def, vars_finish]
  dsimp only
  rw [there]
  dsimp only
  split
  · rename_i linked
    cases linked.symm.trans free
  · rw [name, Option.getD_some]

/-- Two finished trees call globals of one type alike if as many of that type come before. -/
theorem varName_finish_eq_iff (input : RecoveryInput) {tree other : ScriptTree} {id var : VarId} {entry known : Variable}
    (found : tree.vars.get? id = some entry) (named : IsNamedGlobal entry)
    (declares : other.vars.get? var = some known) (other_named : IsNamedGlobal known)
    (typed : known.type = entry.type) :
    (input.finish tree).varName id = (input.finish other).varName var ↔
      (tree.vars.globalSpellings id).count (typePart entry.type) =
        (other.vars.globalSpellings var).count (typePart entry.type) := by
  have type : tree.vars.type id = entry.type := by rw [VarTable.type, found]
  have other_type : other.vars.type var = entry.type := by rw [VarTable.type, declares, ← typed]
  rw [varName_finish_global found named, varName_finish_global declares other_named, typed,
    String.append_right_inj, globalNumber, globalNumber, type, other_type]
  exact ⟨fun same => Nat.succ.inj (eq_of_toString_eq same),
    fun same => congrArg (fun count => toString (count + 1)) same⟩

/-- Below a slot a function that has grouped no globals has one named global for each slot. -/
theorem globalSpellings_eq (function : input.kind sub = .function) {last : Recovery}
    (recovered : input.run sub = .ok last) {slot : Nat} (inside : slot ≤ input.globals.length)
    (free : ∀ other < slot, last.tree.vars.parent? other = none) :
    last.tree.vars.globalSpellings slot = (input.globals.take slot).map typePart := by
  obtain ⟨_, entries⟩ := run_globals function recovered
  have each : ∀ other < slot, ∃ entry type, last.tree.vars.vars.toList[other]? = some entry ∧
      input.globals[other]? = some type ∧ IsNamedGlobal entry ∧ entry.type = type := by
    intro other before
    have known := List.getElem?_eq_getElem (Nat.lt_of_lt_of_le before inside)
    obtain ⟨entry, found, global, type⟩ := entries other _ known
    have alone := free other before
    rw [VarTable.parent?, found] at alone
    refine ⟨entry, _, ?_, known, ⟨global, alone⟩, type⟩
    rw [Array.getElem?_toList]
    exact found
  have named : ∀ entry ∈ last.tree.vars.vars.toList.take slot, IsNamedGlobal entry := by
    intro entry listed
    obtain ⟨other, found⟩ := List.getElem?_of_mem listed
    rw [List.getElem?_take] at found
    split at found
    · rename_i before
      obtain ⟨there, _, same, _, named, _⟩ := each other before
      exact Option.some.inj (same.symm.trans found) ▸ named
    · cases found
  rw [globalSpellings, List.filter_eq_self.mpr fun entry listed => decide_eq_true (named entry listed)]
  refine List.ext_getElem? fun other => ?_
  rw [List.getElem?_map, List.getElem?_map, List.getElem?_take, List.getElem?_take]
  split
  · rename_i before
    obtain ⟨entry, type, found, known, _, same⟩ := each other before
    rw [found, known, Option.map_some, Option.map_some, same]
  · rfl

/-- A function refers to each global slot by one variable of the type of the slot.  Its name is the
one under which the initializer declares a global of that type exactly if as many globals with names
of that type come before both; so it is if the function groups no earlier slots and the initializer
names as many globals of that type before as there are earlier slots of it. -/
theorem global_names_agree_iff {declarer : Nat} (globals : input.layout.globals = some declarer)
    (function : sub ≠ declarer) {declared tree : ScriptTree}
    (initialized : input.recover declarer = .ok declared) (recovered : input.recover sub = .ok tree) :
    (∃ last, input.run sub = .ok last ∧ tree = input.finish last.tree ∧
      last.globals = List.range input.globals.length) ∧
    ∀ (slot : Nat) (type : Ty), input.globals[slot]? = some type →
      tree.vars.kind slot = .global ∧ tree.vars.type slot = type ∧
      ∀ var : VarId, declared.vars.kind var = .global → declared.vars.type var = type →
        declared.vars.parent? var = none → tree.vars.parent? slot = none →
        (tree.varName slot = declared.varName var ↔
          (tree.vars.globalSpellings slot).count (typePart type) =
            (declared.vars.globalSpellings var).count (typePart type)) ∧
        ((∀ other < slot, tree.vars.parent? other = none) →
          ((input.globals.take slot).map typePart).count (typePart type) =
            (declared.vars.globalSpellings var).count (typePart type) →
          tree.varName slot = declared.varName var) := by
  have kind : input.kind sub = .function := by
    refine if_neg fun same => function ?_
    exact Option.some.inj (same.trans globals)
  obtain ⟨last, ran, rfl⟩ := exists_of_recover recovered
  obtain ⟨first, _, rfl⟩ := exists_of_recover initialized
  obtain ⟨range, entries⟩ := run_globals kind ran
  refine ⟨⟨last, ran, rfl, range⟩, fun slot type known => ?_⟩
  obtain ⟨entry, found, global, rfl⟩ := entries slot type known
  obtain ⟨name, there⟩ := exists_get?_assignNames found
  simp only [vars_finish, globalSpellings_assignNames, (alike_assignNames _).parent?]
  refine ⟨(kind_of_get? there).trans global, by rw [VarTable.type, there],
    fun var classed typed alone free => ?_⟩
  obtain ⟨later, here⟩ : ∃ later, first.tree.vars.assignNames.get? var = some later := by
    refine Option.ne_none_iff_exists'.mp fun unknown => ?_
    rw [VarTable.kind, unknown] at classed
    cases classed
  obtain ⟨declaration, declares, class_same, type_same, _⟩ := exists_of_assignNames here
  rw [kind_of_get? here, class_same] at classed
  rw [VarTable.type, here] at typed
  dsimp only at typed
  rw [type_same] at typed
  rw [VarTable.parent?, declares] at alone
  rw [VarTable.parent?, found] at free
  have agree := varName_finish_eq_iff input found ⟨global, free⟩ declares ⟨classed, alone⟩ typed
  refine ⟨agree, fun ungrouped counts => agree.mpr ?_⟩
  have inside : slot ≤ input.globals.length :=
    Nat.le_of_lt (List.getElem?_eq_some_iff.mp known).1
  rw [globalSpellings_eq kind ran inside ungrouped]
  exact counts

/-- A program whose first subroutine sets up globals and calls the second one, all its instructions
being live. -/
def settingUp (program : Program) (globals : List Ty) (saves calls : Nat)
    (actions : List (Nat × ActionSignature)) : RecoveryInput where
  program := program
  table := Liveness.markedTable program (Array.replicate program.commandCount true)
  calls := ⟨⟨#[[(1, calls)], []], #[[], [(0, calls)]], 1⟩,
    (Array.replicate program.commandCount none).set! calls (some 1), [[1], [0]]⟩
  catalog := ⟨actions⟩
  protos := #[Prototype.install {} [] [] .void none, Prototype.install {} [] [] .void none]
  globals := globals
  layout := ⟨0, none, some 0, some saves, 1⟩
  names := ["__globals", "main"]
  settings := {}

/-- Two globals, of which a function prints the second. -/
def counted : RecoveryInput :=
  settingUp
    (.ofNonempty
      [[⟨13, .simple .reserve .int⟩, ⟨15, .constant (.int 5)⟩, ⟨21, ⟨.copyDown, .void, .stack (-8) 4⟩⟩,
        ⟨29, ⟨.moveStack, .void, .offset (-4)⟩⟩, ⟨35, .simple .reserve .int⟩,
        ⟨37, .constant (.int 6)⟩, ⟨43, ⟨.copyDown, .void, .stack (-8) 4⟩⟩,
        ⟨51, ⟨.moveStack, .void, .offset (-4)⟩⟩, ⟨57, .simple .saveBase .void⟩, ⟨59, .jump .call 16⟩,
        ⟨65, .simple .restoreBase .void⟩, ⟨67, ⟨.moveStack, .void, .offset (-8)⟩⟩,
        ⟨73, .simple .ret .void⟩],
       [⟨75, ⟨.copyTopBase, .void, .stack (-4) 4⟩⟩, ⟨83, ⟨.action, .void, .action 4 1⟩⟩,
        ⟨88, .simple .ret .void⟩]] (by simp))
    [.int, .int] 8 9 [(4, .plain "PrintInteger" .void [.int])]

/-- The function and the initializer call the second global alike. -/
theorem global_names_agree_counted : ∃ declared tree, counted.recover 0 = .ok declared ∧
    counted.recover 1 = .ok tree ∧ tree.varName 1 = declared.varName 2 := by
  have kinds : (counted.recover 0).toOption.any (fun declared => declared.vars.kind 2 = .global ∧
      declared.vars.type 2 = .int ∧ declared.vars.parent? 2 = none ∧
      (declared.vars.globalSpellings 2).count "int" = 1) = true := by decide +kernel
  have free : (counted.recover 1).toOption.any (fun tree => tree.vars.parent? 1 = none ∧
      (tree.vars.globalSpellings 1).count "int" = 1) = true := by decide +kernel
  cases initialized : counted.recover 0 with
  | error fault => simp [initialized, Except.toOption] at kinds
  | ok declared =>
      cases recovered : counted.recover 1 with
      | error fault => simp [recovered, Except.toOption] at free
      | ok tree =>
          simp only [initialized, recovered, Except.toOption, Option.any_some,
            decide_eq_true_eq] at kinds free
          obtain ⟨global, type, alone, before⟩ := kinds
          obtain ⟨_, slots⟩ := global_names_agree_iff (by decide : counted.layout.globals = some 0)
            (by decide : (1 : Nat) ≠ 0) initialized recovered
          obtain ⟨_, _, agree⟩ := slots 1 .int rfl
          obtain ⟨names, _⟩ := agree 2 global type alone free.1
          exact ⟨declared, tree, rfl, rfl, names.mpr (free.2.trans before.symm)⟩

/-- A vector, whose three slots are as many variables of the function, comes before a number, which
the function prints. -/
def skipping : RecoveryInput :=
  settingUp
    (.ofNonempty
      [[⟨13, .simple .reserve .float⟩, ⟨15, .simple .reserve .float⟩, ⟨17, .simple .reserve .float⟩,
        ⟨19, .constant (.float ⟨0⟩)⟩, ⟨25, .constant (.float ⟨0⟩)⟩, ⟨31, .constant (.float ⟨0⟩)⟩,
        ⟨37, ⟨.copyDown, .void, .stack (-24) 12⟩⟩, ⟨45, ⟨.moveStack, .void, .offset (-12)⟩⟩,
        ⟨51, .simple .reserve .float⟩, ⟨53, .simple .saveBase .void⟩, ⟨55, .jump .call 16⟩,
        ⟨61, .simple .restoreBase .void⟩, ⟨63, ⟨.moveStack, .void, .offset (-16)⟩⟩,
        ⟨69, .simple .ret .void⟩],
       [⟨71, ⟨.copyTopBase, .void, .stack (-4) 4⟩⟩, ⟨79, ⟨.action, .void, .action 3 1⟩⟩,
        ⟨84, ⟨.action, .void, .action 1 1⟩⟩, ⟨89, .simple .ret .void⟩]] (by simp))
    [.float, .float, .float, .float] 9 10
    [(1, .plain "PrintString" .void [.string]), (3, .plain "FloatToString" .string [.float])]

/-- The initializer declares the fourth slot under another name than the function uses. -/
theorem global_names_differ_skipping :
    ((skipping.run 0).toOption.any fun last => last.stack.at? 3 = some (.var 5) ∧
      last.tree.vars.kind 5 = .global ∧ last.tree.vars.type 5 = .float ∧
      (last.tree.vars.declaration? 5).isSome ∧
      (skipping.finish last.tree).varName 5 = "floatGlobal1") = true ∧
    ((skipping.recover 1).toOption.any fun tree => tree.varName 3 = "floatGlobal4") = true := by
  constructor <;> decide +kernel

end RecoveryInput
end NwScript
