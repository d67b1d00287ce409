import NwScript.Recovery.Frame

/-!
# Frames and names of variables

The frame of a subroutine holds no locals.  The integers that a body reserves first are thus named in
order, whatever the frame is.
-/

namespace NwScript

namespace VarTable

variable {table : VarTable}

theorem lt_of_get? {id : VarId} {entry : Variable} (found : table.get? id = some entry) :
    id < table.size :=
  (Array.getElem?_eq_some_iff.mp found).1

/-- No variable is a local. -/
def HasNoLocals (table : VarTable) : Prop :=
  ∀ (id : VarId) (entry : Variable), table.get? id = some entry → entry.kind ≠ .localVar

theorem hasNoLocals_empty : HasNoLocals .empty := by
  intro id entry found
  simp [empty, get?] at found

theorem HasNoLocals.add (plain : table.HasNoLocals) {entry : Variable}
    (other : entry.kind ≠ .localVar) : HasNoLocals (table.add entry).1 := by
  intro id found known
  have bound := lt_of_get? known
  rw [size_add] at bound
  rcases Nat.lt_succ_iff_lt_or_eq.mp bound with old | rfl
  · rw [get?_add_of_lt entry old] at known
    exact plain id found known
  · rw [get?_add_self] at known
    exact Option.some.inj known ▸ other

theorem HasNoLocals.kind_ne (plain : table.HasNoLocals) (id : VarId) : table.kind id ≠ .localVar := by
  rw [kind]
  cases found : table.get? id with
  | none => exact VarKind.noConfusion
  | some entry => exact plain id entry found

theorem HasNoLocals.modify (plain : table.HasNoLocals) (id : VarId) {change : Variable → Variable}
    (same : ∀ entry, (change entry).kind = entry.kind) : HasNoLocals (table.modify id change) := by
  intro other found known
  rw [get?, VarTable.modify, Array.getElem?_modify] at known
  split at known
  · obtain ⟨entry, old, rfl⟩ := Option.map_eq_some_iff.mp known
    rw [same]
    exact plain other entry old
  · exact plain other found known

theorem HasNoLocals.aggregate (plain : table.HasNoLocals) {members : List VarId}
    (filled : members ≠ []) : HasNoLocals (table.aggregate members).1 := by
  have linked : ∀ (rest : List VarId) (id : VarId) (table : VarTable), table.HasNoLocals →
      HasNoLocals (rest.foldl (fun table member =>
        table.modify member fun entry => { entry with parent := some id }) table) := by
    intro rest id
    induction rest with
    | nil => exact fun _ plain => plain
    | cons member rest induction =>
        exact fun table plain => induction _ (plain.modify member fun _ => rfl)
  cases members with
  | nil => exact absurd rfl filled
  | cons first rest => exact linked _ _ _ (plain.add (plain.kind_ne first))

@[simp]
theorem size_aggregate (table : VarTable) (members : List VarId) :
    (table.aggregate members).1.size = table.size + 1 := by
  have linked : ∀ (rest : List VarId) (id : VarId) (table : VarTable),
      (rest.foldl (fun table member =>
        table.modify member fun entry => { entry with parent := some id }) table).size =
          table.size := by
    intro rest id
    induction rest with
    | nil => exact fun _ => rfl
    | cons member rest induction =>
        intro table
        rw [List.foldl_cons, induction, size_modify]
  simp [aggregate, linked]

end VarTable

namespace Frame

variable {vars : VarTable}

/-- A table without locals that holds some slots and is no smaller than another one. -/
structure Fills (before : VarTable) (after : VarTable) (slots : List VarId) : Prop where
  /-- No variable is a local. -/
  plain : after.HasNoLocals
  /-- No variable is lost. -/
  size : before.size ≤ after.size
  /-- The slots are variables. -/
  known : ∀ slot ∈ slots, slot < after.size

theorem Fills.mono {before middle after : VarTable} {slots : List VarId}
    (first : Fills before middle slots) {others : List VarId} (second : Fills middle after others) :
    Fills before after (slots ++ others) where
  plain := second.plain
  size := Nat.le_trans first.size second.size
  known := by
    intro slot listed
    rcases List.mem_append.mp listed with old | new
    · exact Nat.lt_of_lt_of_le (first.known slot old) second.size
    · exact second.known slot new

theorem fills_addVars (plain : vars.HasNoLocals) (kind : VarKind) (other : kind ≠ .localVar)
    (types : List Ty) : Fills vars (addVars kind vars types).1 (addVars kind vars types).2 := by
  induction types generalizing vars with
  | nil => exact ⟨plain, Nat.le_refl _, fun _ listed => absurd listed List.not_mem_nil⟩
  | cons type types induction =>
      have added : Fills vars (vars.add { kind, type }).1 [vars.size] := by
        refine ⟨plain.add other, by simp, ?_⟩
        intro slot listed
        rw [List.mem_singleton.mp listed, VarTable.size_add]
        exact Nat.lt_add_one _
      exact added.mono (induction added.plain)

theorem Fills.aggregate {after : VarTable} {slots : List VarId} (fills : Fills vars after slots)
    (several : 1 < slots.length) : Fills vars (after.aggregate slots).1 slots where
  plain := fills.plain.aggregate (List.ne_nil_of_length_pos (by omega))
  size := by
    rw [VarTable.size_aggregate]
    exact Nat.le_succ_of_le fills.size
  known := by
    intro slot listed
    rw [VarTable.size_aggregate]
    exact Nat.lt_succ_of_lt (fills.known slot listed)

theorem fills_ofResult (plain : vars.HasNoLocals) (type : Ty) :
    Fills vars (ofResult type vars).1 (ofResult type vars).2 := by
  have fills := fills_addVars plain .ret VarKind.noConfusion type.flatten
  unfold ofResult
  dsimp only
  split
  · rename_i several
    exact fills.aggregate several
  · exact fills

theorem fills_ofParam (plain : vars.HasNoLocals) (type : Ty) (width : Nat) :
    Fills vars (ofParam type width vars).1 (ofParam type width vars).2.2 := by
  unfold ofParam
  dsimp only
  split
  · rename_i whole
    have fills := fills_addVars plain .param VarKind.noConfusion type.flatten
    exact fills.aggregate (by rw [length_addVars, whole.2]; exact whole.1)
  · refine ⟨plain.add VarKind.noConfusion, by simp, fun slot listed => ?_⟩
    rw [List.eq_of_mem_replicate listed]
    simp

theorem fills_ofParams (plain : vars.HasNoLocals) (types : List (Ty × Nat)) :
    Fills vars (ofParams vars types).1 ((ofParams vars types).2.flatMap (·.2)) := by
  induction types generalizing vars with
  | nil => exact ⟨plain, Nat.le_refl _, fun _ listed => absurd listed List.not_mem_nil⟩
  | cons type types induction =>
      have first := fills_ofParam plain type.1 type.2
      exact first.mono (induction first.plain)

/-- A frame holds its slots and no locals. -/
theorem fills_ofProto (plain : vars.HasNoLocals) (proto : Prototype) :
    Fills vars (ofProto proto vars).vars (ofProto proto vars).slots := by
  have result := fills_ofResult plain proto.returnType
  have params := fills_ofParams result.plain (proto.params.zip (proto.paramRanges.map (·.2)))
  have both := result.mono params
  refine ⟨both.plain, both.size, fun slot listed => both.known slot ?_⟩
  simpa [ofProto] using listed

end Frame

namespace RecoveryInput

/-- The recovery of a function begins with an empty body, outside of every scope, on a frame without
locals. -/
structure IsFresh (recovery : Recovery) (body : Body) : Prop where
  /-- The body is the only node. -/
  nodes : recovery.tree.nodes = #[.block body]
  /-- The body is empty. -/
  children : body.children = []
  /-- A function is recovered. -/
  kind : recovery.tree.kind = .function
  /-- The frame has no locals. -/
  plain : recovery.tree.vars.HasNoLocals
  /-- The stack holds variables. -/
  known : ∀ entry ∈ recovery.stack.slots, ∃ id < recovery.tree.vars.size, entry = .var id
  /-- No scope is open. -/
  outside : recovery.scopes = []
  /-- The subroutine has not been left. -/
  going : recovery.finished = false
  /-- Nothing waits to be returned. -/
  owed : recovery.pendingReturn = none
  /-- Nothing came before. -/
  track : recovery.track = none
  /-- No loop waits for its condition. -/
  settled : recovery.awaiting = none
  /-- No switch is about to begin. -/
  direct : recovery.dispatch = none

theorem exists_isFresh {input : RecoveryInput} {sub : Nat} (function : input.kind sub = .function) :
    ∃ body, IsFresh (input.start sub) body := by
  have globals := Frame.fills_addVars VarTable.hasNoLocals_empty .global VarKind.noConfusion
    input.globals
  refine ⟨{ start := (input.span sub).1, limit := (input.span sub).2 }, ?_⟩
  rw [start, function]
  dsimp only
  cases found : input.protos[sub]? with
  | none =>
      refine ⟨rfl, rfl, function, globals.plain, ?_, rfl, rfl, rfl, rfl, rfl, rfl⟩
      exact fun entry listed => absurd listed (Array.not_mem_empty entry)
  | some proto =>
      have frame := Frame.fills_ofProto globals.plain proto
      refine ⟨rfl, rfl, function, frame.plain, ?_, rfl, rfl, rfl, rfl, rfl, rfl⟩
      intro entry listed
      let slots := (Frame.ofProto proto
        (Frame.addVars .global VarTable.empty input.globals).1).slots
      have member : entry ∈ (SlotStack.empty.pushAll (slots.map StackEntry.var)).toList :=
        Array.mem_toList_iff.mpr listed
      rw [SlotStack.toList_pushAll, SlotStack.toList_empty, List.nil_append] at member
      obtain ⟨id, held, rfl⟩ := List.mem_map.mp member
      exact ⟨id, frame.known id held, rfl⟩

end RecoveryInput

namespace VarTable

/-- A variable that has a name of its own: it is neither intermediate, nor a result slot, nor a member. -/
def IsNamed (entry : Variable) : Prop :=
  entry.kind ≠ .temp ∧ entry.kind ≠ .ret ∧ entry.parent = none

instance (entry : Variable) : Decidable (IsNamed entry) :=
  inferInstanceAs (Decidable (_ ∧ _ ∧ _))

/-- A parameter whose type is not determined. -/
def isUntyped (entry : Variable) : Bool :=
  entry.kind = .param && !entry.type.isFullyTyped

/-- The name of a variable up to its number. -/
def label (entry : Variable) : String :=
  if isUntyped entry then "__unresolved_param" else typePart entry.type ++ kindPart entry.kind

namespace Naming

/-- How often a spelling was used. -/
def used (naming : Naming) (key : String × String) : Nat :=
  (naming.counts.lookup key).getD 0

/-- The names behind some variables. -/
def behind (naming : Naming) (entries : List Variable) : Naming :=
  entries.foldl (fun naming entry => (naming.name entry).2) naming

theorem getElem?_nameAll (naming : Naming) (entries : List Variable) (place : Nat) :
    (naming.nameAll entries)[place]? =
      entries[place]?.map fun entry => ((naming.behind (entries.take place)).name entry).1 := by
  induction entries generalizing naming place with
  | nil => simp [nameAll]
  | cons entry entries induction =>
      cases place with
      | zero => simp [nameAll, behind]
      | succ place => simp [nameAll, behind, induction]

theorem lookup_filter_ne {counts : List ((String × String) × Nat)} {key other : String × String}
    (different : key ≠ other) :
    (counts.filter (·.1 ≠ other)).lookup key = counts.lookup key := by
  induction counts with
  | nil => rfl
  | cons count counts induction =>
      obtain ⟨spelling, number⟩ := count
      by_cases same : spelling = other
      · have skipped : (key == spelling) = false := by simpa [same] using different
        simpa [same, List.lookup_cons, same ▸ skipped] using induction
      · simp only [ne_eq, decide_not] at induction
        simp [same, List.lookup_cons, induction]

theorem used_bump (naming : Naming) (key other : String × String) :
    (naming.bump key).2.used other =
      if other = key then naming.used other + 1 else naming.used other := by
  by_cases same : other = key
  · simp [used, bump, same]
  · have skipped : (other == key) = false := by simpa using same
    simp only [used, bump, List.lookup_cons, skipped, if_neg same]
    rw [lookup_filter_ne same]

/-- What a variable is counted as, unless it is an undetermined parameter. -/
def key (entry : Variable) : String × String :=
  (typePart entry.type, kindPart entry.kind)

/-- The number that a variable would get next. -/
def next (naming : Naming) (entry : Variable) : Nat :=
  if isUntyped entry then naming.params else naming.used (key entry) + 1

/-- The counts behind a variable with a name of its own. -/
def count (naming : Naming) (entry : Variable) : Naming :=
  let counted := if entry.kind = .param then { naming with params := naming.params + 1 } else naming
  if isUntyped entry then counted else (counted.bump (key entry)).2

variable {entry : Variable}

theorem isNamed_iff :
    IsNamed entry ↔ ¬(entry.kind = .temp ∨ entry.kind = .ret ∨ entry.parent.isSome) := by
  simp [IsNamed, not_or]

/-- A variable without a name of its own is passed by. -/
theorem name_of_not_isNamed (naming : Naming) (unnamed : ¬IsNamed entry) : naming.name entry = (entry, naming) := by
  rw [name, if_pos (Decidable.not_not.mp (mt isNamed_iff.mpr unnamed))]

theorem name_of_isNamed (naming : Naming) (named : IsNamed entry) : naming.name entry =
    ({ entry with name := some (label entry ++ toString (naming.next entry)) }, naming.count entry) := by
  rw [name, if_neg (isNamed_iff.mp named)]
  dsimp only
  by_cases untyped : isUntyped entry = true
  · have here : entry.kind = .param ∧ !entry.type.isFullyTyped := by simpa [isUntyped] using untyped
    rw [if_pos here, count, if_pos untyped, label, if_pos untyped, next, if_pos untyped]
  · have typed : ¬(entry.kind = .param ∧ !entry.type.isFullyTyped) := by
      simpa [isUntyped] using untyped
    rw [if_neg typed, count, if_neg untyped, label, if_neg untyped, next, if_neg untyped]
    split <;> rfl

/-- An undetermined parameter does not count as one of a type and a class. -/
theorem used_count (naming : Naming) (entry : Variable) (spelling : String × String) :
    (naming.count entry).used spelling = naming.used spelling +
      if isUntyped entry = false ∧ spelling = key entry then 1 else 0 := by
  have counted : Naming.used
      (if entry.kind = .param then { naming with params := naming.params + 1 } else naming)
        spelling = naming.used spelling := by
    split <;> rfl
  rw [count]
  cases untyped : isUntyped entry with
  | true => simpa using counted
  | false =>
      simp only [Bool.false_eq_true, if_false, true_and]
      rw [used_bump, counted]
      split <;> rfl

theorem used_name (naming : Naming) (entry : Variable) (spelling : String × String) :
    (naming.name entry).2.used spelling = naming.used spelling +
      if IsNamed entry ∧ isUntyped entry = false ∧ spelling = key entry then 1 else 0 := by
  by_cases named : IsNamed entry
  · rw [name_of_isNamed naming named]
    simp only [used_count, named, true_and]
  · rw [name_of_not_isNamed naming named, if_neg fun all => named all.1]
    rfl

/-- The spelling of integer locals. -/
def intLocal : String × String := ("int", "")

theorem used_name_of_ne (naming : Naming) {entry : Variable} (other : entry.kind ≠ .localVar) :
    (naming.name entry).2.used intLocal = naming.used intLocal := by
  rw [used_name, if_neg]
  · rfl
  · rintro ⟨⟨not_temp, not_ret, _⟩, _, same⟩
    have part : "" = kindPart entry.kind := congrArg Prod.snd same
    cases kind : entry.kind with
    | localVar => exact other kind
    | temp => exact not_temp kind
    | ret => exact not_ret kind
    | param => exact absurd (kind ▸ part) (by decide)
    | global => exact absurd (kind ▸ part) (by decide)

/-- An integer local that is no member of an aggregate. -/
def IsIntLocal (entry : Variable) : Prop :=
  entry.kind = .localVar ∧ entry.type = .int ∧ entry.parent = none

theorem name_intLocal (naming : Naming) {entry : Variable} (plain : IsIntLocal entry) :
    naming.name entry =
      ({ entry with name := some ("int" ++ toString (naming.used intLocal + 1)) },
        (naming.bump intLocal).2) := by
  obtain ⟨kind, type, parent⟩ := plain
  have named : IsNamed entry := ⟨by simp [kind], by simp [kind], parent⟩
  have typed : ¬(isUntyped entry = true) := by simp [isUntyped, kind]
  have spelled : key entry = intLocal := by
    rw [key, kind, type]
    rfl
  have labelled : label entry = "int" := by
    rw [label, if_neg typed, kind, type]
    rfl
  rw [name_of_isNamed naming named, labelled, next, if_neg typed, count, if_neg typed,
    if_neg (by simp [kind]), spelled]

/-- What is no local does not count. -/
theorem used_behind_of_ne {naming : Naming} {entries : List Variable}
    (other : ∀ entry ∈ entries, entry.kind ≠ .localVar) :
    (naming.behind entries).used intLocal = naming.used intLocal := by
  induction entries generalizing naming with
  | nil => rfl
  | cons entry entries induction =>
      have rest := @induction (naming.name entry).2
        fun found listed => other found (List.mem_cons_of_mem _ listed)
      exact rest.trans (used_name_of_ne naming (other entry List.mem_cons_self))

theorem used_behind_intLocals {naming : Naming} {entries : List Variable}
    (plain : ∀ entry ∈ entries, IsIntLocal entry) :
    (naming.behind entries).used intLocal = naming.used intLocal + entries.length := by
  induction entries generalizing naming with
  | nil => rfl
  | cons entry entries induction =>
      have rest := @induction (naming.bump intLocal).2
        fun found listed => plain found (List.mem_cons_of_mem _ listed)
      rw [used_bump, if_pos rfl] at rest
      have step : naming.behind (entry :: entries) = (naming.bump intLocal).2.behind entries := by
        rw [behind, List.foldl_cons, name_intLocal naming (plain entry List.mem_cons_self)]
        rfl
      rw [step, rest, List.length_cons]
      omega

end Naming

/-- The names behind those of some first variables. -/
def namedBefore (table : VarTable) (id : VarId) : Naming :=
  Naming.behind {} (table.vars.toList.take id)

theorem get?_assignNames (table : VarTable) (id : VarId) : table.assignNames.get? id =
    (table.get? id).map fun entry => ((table.namedBefore id).name entry).1 := by
  rw [assignNames, get?, List.getElem?_toArray, Naming.getElem?_nameAll, Array.getElem?_toList]
  rfl

/-- Integer locals that were added first are named in order. -/
theorem get?_assignNames_intLocal {table : VarTable} {first count slot : Nat}
    (frame : ∀ id < first, ∀ entry, table.get? id = some entry → entry.kind ≠ .localVar)
    (locals : ∀ place < count, ∃ entry, table.get? (first + place) = some entry ∧
      Naming.IsIntLocal entry)
    (inside : slot < count) :
    ∃ entry, table.get? (first + slot) = some entry ∧ Naming.IsIntLocal entry ∧
      table.assignNames.get? (first + slot) =
        some { entry with name := some ("int" ++ toString (slot + 1)) } := by
  obtain ⟨entry, found, plain⟩ := locals slot inside
  refine ⟨entry, found, plain, ?_⟩
  have here : table.vars.toList[first + slot]? = some entry := by
    rw [Array.getElem?_toList]
    exact found
  have bound : first + slot < table.vars.toList.length := (List.getElem?_eq_some_iff.mp here).1
  let named : Naming := {}
  have split : table.vars.toList.take (first + slot) =
      table.vars.toList.take first ++ (table.vars.toList.drop first).take slot := List.take_add
  have before : ∀ entry ∈ table.vars.toList.take first, entry.kind ≠ .localVar := by
    intro entry listed
    obtain ⟨place, inner, rfl⟩ := List.mem_take_iff_getElem.mp listed
    refine frame place (by omega) _ ?_
    rw [get?, ← Array.getElem?_toList]
    exact List.getElem?_eq_getElem _
  have reserved : ∀ entry ∈ (table.vars.toList.drop first).take slot, Naming.IsIntLocal entry := by
    intro entry listed
    obtain ⟨place, inner, rfl⟩ := List.mem_take_iff_getElem.mp listed
    obtain ⟨other, known, plain⟩ := locals place (by omega)
    rw [get?, ← Array.getElem?_toList, List.getElem?_eq_getElem (by omega)] at known
    rw [List.getElem_drop]
    exact Option.some.inj known ▸ plain
  have counted : (named.behind (table.vars.toList.take (first + slot))).used Naming.intLocal =
      slot := by
    rw [split]
    have appended : named.behind (table.vars.toList.take first ++
        (table.vars.toList.drop first).take slot) =
          (named.behind (table.vars.toList.take first)).behind
            ((table.vars.toList.drop first).take slot) := List.foldl_append
    rw [appended, Naming.used_behind_intLocals reserved, Naming.used_behind_of_ne before,
      List.length_take, List.length_drop]
    have fresh : named.used Naming.intLocal = 0 := rfl
    omega
  rw [assignNames, get?, List.getElem?_toArray, Naming.getElem?_nameAll, here, Option.map_some,
    Naming.name_intLocal _ plain]
  rw [counted]

end VarTable
end NwScript
