import NwScript.Proofs.GlobalNames
import NwScript.Proofs.ParameterRanges
import NwScript.Proofs.QuietSteps

/-!
# Frames of callers and callees

A caller leaves the slots for the result and, above them, the arguments with the first one on top.  The
frame of the callee names the same slots: those of a declared parameter lie where its range says, with
the members of an aggregate in the order in which they are declared.  A call takes the slots of the same
ranges off the stack, the first range first, and makes one argument of each.
-/

namespace NwScript

namespace Ty

/-- A single value of one slot. -/
def IsCell : Ty → Prop
  | .simple code => code.slots = 1
  | .aggregate _ => False

instance : DecidablePred IsCell
  | .simple code => inferInstanceAs (Decidable (code.slots = 1))
  | .aggregate _ => .isFalse id

section Cells

variable {type : Ty} {types : List Ty}

theorem IsCell.slots (cell : type.IsCell) : type.slots = 1 := by
  cases type with
  | simple code => exact cell
  | aggregate members => exact cell.elim

theorem IsCell.flatten (cell : type.IsCell) : type.flatten = [type] := by
  cases type with
  | simple code =>
      cases code with
      | vector => cases cell
      | _ => first | rfl | cases cell
  | aggregate members => exact cell.elim

theorem flattenAll_of_cells (cells : ∀ type ∈ types, type.IsCell) : flattenAll types = types := by
  induction types with
  | nil => rfl
  | cons type types induction =>
      obtain ⟨cell, others⟩ := List.forall_mem_cons.mp cells
      rw [flattenAll_cons, cell.flatten, induction others, List.singleton_append]

/-- An aggregate of single slots has these as members, and so has a vector. -/
theorem flatten_ofMembers (cells : ∀ type ∈ types, type.IsCell) :
    (ofMembers types).flatten = types :=
  (flatten_of_members? (members?_ofMembers types)).trans (flattenAll_of_cells cells)

end Cells

end Ty

namespace Prototype

section Cells

variable {part : List Ty}

/-- A range is as wide as the slots it covers if these are single. -/
theorem rangeWidth_of_cells (some_slot : part ≠ []) (cells : ∀ type ∈ part, type.IsCell) :
    rangeWidth part = part.length := by
  have slots : ∀ type ∈ part, type.IsSlot := fun type listed => .inr (cells type listed).slots
  refine (rangeWidth_le some_slot slots).2.mpr (.inr fun unknown => ?_)
  cases cells _ unknown

/-- The members of a declared parameter lie in its slots, the last one on top. -/
theorem flatten_declaredType (some_slot : part ≠ []) (cells : ∀ type ∈ part, type.IsCell) :
    (declaredType part).flatten = part.reverse := by
  match part with
  | [type] => exact (cells type (List.mem_singleton_self type)).flatten
  | first :: second :: rest =>
      exact Ty.flatten_ofMembers fun type listed => cells type (List.mem_reverse.mp listed)

end Cells

theorem params_eq_map (proto : Prototype) : proto.params = proto.covered.map declaredType :=
  paramsFrom_eq_map _ _ _

/-- The parameters of a frame are declared with the types and widths of what they cover. -/
theorem zip_widths (proto : Prototype) :
    proto.params.zip (proto.paramRanges.map (·.2)) =
      proto.covered.map fun part => (declaredType part, rangeWidth part) := by
  rw [widths_eq_map, params_eq_map, List.zip_map']

section Ranges

variable {proto : Prototype} (cells : ∀ type ∈ proto.slots, type.IsCell)

include cells

/-- What a parameter covers is made of single slots. -/
theorem cells_of_mem_covered : ∀ part ∈ proto.covered, ∀ type ∈ part, type.IsCell := by
  intro part listed type inside
  refine cells type ?_
  rw [← flatten_coveredFrom proto.groups 0 proto.slots]
  exact List.mem_flatten_of_mem listed inside

theorem widths_of_cells : proto.paramRanges.map (·.2) = proto.covered.map List.length := by
  rw [widths_eq_map]
  exact List.map_congr_left fun part listed =>
    rangeWidth_of_cells (coveredFrom_ne_nil part listed) (cells_of_mem_covered cells part listed)

/-- A range begins behind the slots that the parameters before cover and holds those of its own. -/
theorem getElem?_paramRanges (index : Nat) : proto.paramRanges[index]? = proto.covered[index]?.map
    fun part => (((proto.covered.take index).map List.length).sum, part.length) := by
  have start : ((proto.paramRanges.take index).map (·.2)).sum =
      ((proto.covered.take index).map List.length).sum := by
    rw [List.map_take, widths_of_cells cells, ← List.map_take]
  rw [paramRanges, getElem?_rangesFrom, Nat.zero_add, ← paramRanges, start, params, paramsFrom_eq_map,
    List.getElem?_map, Option.map_map]
  cases found : proto.covered[index]? with
  | none => rw [covered] at found; rw [found]; rfl
  | some part =>
      have listed := List.mem_of_getElem? found
      have width := rangeWidth_of_cells (coveredFrom_ne_nil part listed)
        (cells_of_mem_covered cells part listed)
      rw [covered] at found
      rw [found]
      exact congrArg (fun width => some (_, width)) width

end Ranges

/-- Every range holds some slot and ends where the last one does or before. -/
theorem inside_of_mem_rangesFrom {types : List Ty} {first : Nat} {range : Nat × Nat}
    (listed : range ∈ rangesFrom first types) :
    0 < range.2 ∧ range.1 + range.2 ≤ first + ((rangesFrom first types).map (·.2)).sum := by
  induction types generalizing first with
  | nil => exact absurd listed List.not_mem_nil
  | cons type types induction =>
      rw [rangesFrom] at listed ⊢
      rw [List.map_cons, List.sum_cons]
      rcases List.mem_cons.mp listed with rfl | behind
      · exact ⟨Nat.lt_of_lt_of_le Nat.one_pos (Nat.le_max_right _ _), by omega⟩
      · obtain ⟨some_slot, below⟩ := induction behind
        exact ⟨some_slot, by omega⟩

/-- An element of one of several lists stands in all of them together behind the lists before. -/
theorem getElem?_flatten {α : Type} {parts : List (List α)} {part : List α} {index offset : Nat}
    (found : parts[index]? = some part) (inside : offset < part.length) :
    parts.flatten[((parts.take index).map List.length).sum + offset]? = part[offset]? := by
  induction parts generalizing index with
  | nil => cases found
  | cons first parts induction =>
      cases index with
      | zero =>
          obtain rfl := Option.some.inj found
          simp [List.getElem?_append_left, inside]
      | succ index =>
          rw [List.flatten_cons, List.take_succ_cons, List.map_cons, List.sum_cons, Nat.add_assoc,
            List.getElem?_append_right (Nat.le_add_right _ _), Nat.add_sub_cancel_left]
          exact induction found

/-- A place in several lists together lies in one of them. -/
theorem exists_part_of_lt {α : Type} {parts : List (List α)} {place : Nat}
    (inside : place < parts.flatten.length) : ∃ (index : Nat) (part : List α),
      parts[index]? = some part ∧ ((parts.take index).map List.length).sum ≤ place ∧
        place < ((parts.take index).map List.length).sum + part.length := by
  induction parts generalizing place with
  | nil => exact absurd inside (Nat.not_lt_zero place)
  | cons first parts induction =>
      by_cases here : place < first.length
      · exact ⟨0, first, rfl, Nat.zero_le _, by simpa using here⟩
      · rw [List.flatten_cons, List.length_append] at inside
        obtain ⟨index, part, found, above, below⟩ := @induction (place - first.length) (by omega)
        refine ⟨index + 1, part, found, ?_⟩
        rw [List.take_succ_cons, List.map_cons, List.sum_cons]
        omega

theorem exists_getElem?_of_forall₂ {α β : Type} {Related : α → β → Prop} {left : List α} {right : List β}
    (related : List.Forall₂ Related left right) {index : Nat} {one : α} (found : left[index]? = some one) :
    ∃ other, right[index]? = some other ∧ Related one other := by
  induction related generalizing index with
  | nil => cases found
  | cons here _ induction =>
      cases index with
      | zero => exact ⟨_, rfl, Option.some.inj found ▸ here⟩
      | succ index => exact induction found

end Prototype

namespace VarTable

variable {before middle after table : VarTable} {kind : VarKind} {whole slot : VarId} {type : Ty}

/-- Variables are only added. -/
def Prolongs (before after : VarTable) : Prop :=
  ∀ (id : VarId) (entry : Variable), before.get? id = some entry → after.get? id = some entry

theorem Prolongs.refl (table : VarTable) : table.Prolongs table :=
  fun _ _ found => found

theorem Prolongs.trans (first : before.Prolongs middle) (second : middle.Prolongs after) :
    before.Prolongs after :=
  fun _ _ found => second _ _ (first _ _ found)

theorem Prolongs.add (table : VarTable) (entry : Variable) : table.Prolongs (table.add entry).1 :=
  fun _ _ found => (get?_add_of_lt entry (lt_of_get? found)).trans found

/-- A slot of a variable: the variable itself or a member of it. -/
def IsSlotOf (table : VarTable) (kind : VarKind) (whole : VarId) (type : Ty) (slot : VarId) : Prop :=
  ∃ entry, table.get? slot = some entry ∧ entry.kind = kind ∧ entry.type = type ∧
    (slot = whole ∨ entry.parent = some whole)

theorem IsSlotOf.prolong (isSlot : before.IsSlotOf kind whole type slot)
    (prolongs : before.Prolongs after) : after.IsSlotOf kind whole type slot := by
  obtain ⟨entry, found, rest⟩ := isSlot
  exact ⟨entry, prolongs _ _ found, rest⟩

/-- Members are linked to their aggregate and nothing else changes. -/
theorem get?_foldl_link (parent : VarId) (members : List VarId) (table : VarTable) (id : VarId) :
    (members.foldl (fun table member => table.modify member
        fun entry => { entry with parent := some parent }) table).get? id =
      (table.get? id).map fun entry =>
        if id ∈ members then { entry with parent := some parent } else entry := by
  induction members generalizing table with
  | nil => simp
  | cons member members induction =>
      rw [List.foldl_cons, induction, get?_modify]
      by_cases here : member = id
      · subst here
        rw [if_pos rfl, Option.map_map]
        congr 1
        funext entry
        by_cases again : member ∈ members <;> simp [again]
      · rw [if_neg here]
        congr 1
        funext entry
        simp [Ne.symm here]

theorem get?_addVars (kind : VarKind) (vars : VarTable) (types : List Ty) (index : Nat) :
    (Frame.addVars kind vars types).1.get? (vars.size + index) =
      types[index]?.map fun type => { kind, type } := by
  obtain ⟨entries, _⟩ := RecoveryInput.addVars_spec kind vars types
  rw [get?, ← Array.getElem?_toList, entries, List.getElem?_append_right]
  · rw [Array.length_toList, List.getElem?_map]
    congr 2
    exact Nat.add_sub_cancel_left _ _
  · rw [Array.length_toList]
    exact Nat.le_add_right _ _

theorem prolongs_addVars (kind : VarKind) (vars : VarTable) (types : List Ty) :
    vars.Prolongs (Frame.addVars kind vars types).1 := by
  induction types generalizing vars with
  | nil => exact .refl vars
  | cons type types induction => exact (Prolongs.add _ _).trans (induction _)

/-- The slots that a list of new variables fills. -/
theorem slots_addVars (kind : VarKind) (vars : VarTable) (types : List Ty) :
    (Frame.addVars kind vars types).2 = List.range' vars.size types.length :=
  (RecoveryInput.addVars_spec kind vars types).2

theorem size_addVars (kind : VarKind) (vars : VarTable) (types : List Ty) :
    (Frame.addVars kind vars types).1.size = vars.size + types.length := by
  have entries := congrArg List.length (RecoveryInput.addVars_spec kind vars types).1
  simpa [size] using entries

/-- An aggregate is added and its members are linked to it. -/
theorem exists_get?_aggregate (table : VarTable) (members : List VarId) : ∃ whole : Variable,
    whole.members = members ∧
      whole.type = .ofMembers (members.filterMap fun member => (table.get? member).map (·.type)) ∧
      ∀ id, (table.aggregate members).1.get? id = ((table.add whole).1.get? id).map fun entry =>
        if id ∈ members then { entry with parent := some table.size } else entry :=
  ⟨_, rfl, rfl, get?_foldl_link table.size members _⟩

/-- Grouping variables leaves the older ones as they are. -/
theorem prolongs_aggregate {slots : List VarId} (prolongs : before.Prolongs table)
    (fresh : ∀ slot ∈ slots, before.size ≤ slot) : before.Prolongs (table.aggregate slots).1 := by
  intro id entry found
  have other : id ∉ slots := fun listed => Nat.not_lt.mpr (fresh id listed) (lt_of_get? found)
  obtain ⟨whole, _, _, linked⟩ := table.exists_get?_aggregate slots
  rw [linked, get?_add_of_lt _ (lt_of_get? (prolongs id entry found)), prolongs id entry found,
    Option.map_some, if_neg other]

theorem filterMap_type_addVars (kind : VarKind) (vars : VarTable) (types : List Ty) :
    let added := Frame.addVars kind vars types
    added.2.filterMap (fun member => (added.1.get? member).map (·.type)) = types := by
  intro added
  have ids : added.2 = List.range' vars.size types.length := slots_addVars kind vars types
  have found : added.2.map added.1.get? = types.map fun type => some { kind, type } := by
    refine List.ext_getElem (by simp [ids]) fun index here there => ?_
    rw [List.length_map] at there
    simp only [List.getElem_map, ids, List.getElem_range', Nat.one_mul, added, get?_addVars,
      List.getElem?_eq_getElem there, Option.map_some]
  have mapped := List.filterMap_map (f := added.1.get?) (g := Option.map (·.type)) (l := added.2)
  rw [found, List.filterMap_map] at mapped
  exact mapped.symm.trans List.filterMap_some

/-- New variables that are grouped are slots of their aggregate, which has the type of them together. -/
theorem aggregate_addVars (kind : VarKind) (vars : VarTable) (types : List Ty) :
    let added := Frame.addVars kind vars types
    let grouped := added.1.aggregate added.2
    vars.Prolongs grouped.1 ∧ List.Forall₂ (grouped.1.IsSlotOf kind grouped.2) types added.2 ∧
      ∃ entry, grouped.1.get? grouped.2 = some entry ∧ entry.members = added.2 ∧
        entry.type = .ofMembers types := by
  intro added grouped
  have ids : added.2 = List.range' vars.size types.length := slots_addVars kind vars types
  have size : added.1.size = vars.size + types.length := size_addVars kind vars types
  have entry : ∀ index (here : index < types.length),
      added.1.get? (vars.size + index) = some { kind, type := types[index] } := fun index here => by
    rw [get?_addVars, List.getElem?_eq_getElem here, Option.map_some]
  have inside : ∀ slot ∈ added.2, vars.size ≤ slot ∧ slot < added.1.size := fun slot listed => by
    rw [ids] at listed
    rw [size]
    exact List.mem_range'_1.mp listed
  obtain ⟨whole, members, type, linked⟩ := added.1.exists_get?_aggregate added.2
  have outside : added.1.size ∉ added.2 := fun listed => absurd (inside _ listed).2 (Nat.lt_irrefl _)
  have known : grouped.1.get? grouped.2 = some whole := by
    refine (linked added.1.size).trans ?_
    rw [get?_add_self, Option.map_some, if_neg outside]
  rw [filterMap_type_addVars] at type
  refine ⟨prolongs_aggregate (prolongs_addVars _ _ _) fun slot listed => (inside slot listed).1, ?_,
    whole, known, members, type⟩
  refine List.forall₂_iff_get.mpr ⟨by simp [ids], fun index here there => ?_⟩
  have slot : added.2.get ⟨index, there⟩ = vars.size + index := by
    simp [ids, List.getElem_range']
  have listed : vars.size + index ∈ added.2 := slot ▸ List.get_mem _ _
  rw [slot]
  refine ⟨{ kind, type := types[index], parent := some added.1.size }, (linked _).trans ?_, rfl, rfl,
    .inr rfl⟩
  rw [get?_add_of_lt _ (inside _ listed).2, entry index here, Option.map_some, if_pos listed]

end VarTable

namespace Frame

open VarTable Prototype

variable {part : List Ty} {parts : List (List Ty)}

/-- The slots of a parameter are those that it covers, the last one first, and it is declared with the
type of them together. -/
structure Declares (table : VarTable) (part : List Ty) (param : VarId × List VarId) : Prop where
  /-- Each slot is one of the parameter. -/
  slots : List.Forall₂ (table.IsSlotOf .param param.1) part.reverse param.2
  /-- The parameter has the declared type. -/
  type : ∃ entry, table.get? param.1 = some entry ∧ entry.type = declaredType part

theorem Declares.prolong {before after : VarTable} {param : VarId × List VarId}
    (declares : Declares before part param) (prolongs : before.Prolongs after) :
    Declares after part param := by
  obtain ⟨entry, found, type⟩ := declares.type
  exact ⟨declares.slots.imp fun _ _ isSlot => isSlot.prolong prolongs, entry, prolongs _ _ found, type⟩

theorem lengths_of_declares {table : VarTable} {params : List (VarId × List VarId)}
    (declares : List.Forall₂ (Declares table) parts params) :
    params.map (fun param => param.2.length) = parts.map List.length := by
  induction declares with
  | nil => rfl
  | cons here _ induction =>
      rw [List.map_cons, List.map_cons, induction, ← here.slots.length_eq, List.length_reverse]

section Depths

variable {table : VarTable} {proto : Prototype} {params : List (VarId × List VarId)}
  (declares : List.Forall₂ (Declares table) proto.covered params)

include declares

/-- The parameters have all the slots of the prototype. -/
theorem length_slots_of_declares : (params.reverse.flatMap (·.2)).length = proto.slotCount := by
  rw [List.length_flatMap, List.map_reverse, List.sum_reverse, lengths_of_declares declares,
    ← List.length_flatten, covered, flatten_coveredFrom]
  rfl

/-- From the top down, what lies in the range of a parameter are its slots. -/
theorem exists_slot_of_declares (cells : ∀ type ∈ proto.slots, type.IsCell) {index slot : Nat}
    {range : Nat × Nat} {param : VarId} (ranged : proto.paramRanges[index]? = some range)
    (found : (params.map (·.1))[index]? = some param) (above : range.1 ≤ slot)
    (below : slot < range.1 + range.2) :
    ∃ type var, proto.slots[slot]? = some type ∧
      (params.map (·.2.reverse)).flatten[slot]? = some var ∧
        table.IsSlotOf .param param type var := by
  rw [getElem?_paramRanges cells] at ranged
  obtain ⟨part, covers, rfl⟩ := Option.map_eq_some_iff.mp ranged
  obtain ⟨offset, rfl⟩ := Nat.exists_eq_add_of_le above
  have inside : offset < part.length := Nat.lt_of_add_lt_add_left below
  obtain ⟨framed, listed, here⟩ := exists_getElem?_of_forall₂ declares covers
  rw [List.getElem?_map, listed] at found
  obtain rfl := Option.some.inj found
  have slots := List.forall₂_reverse_iff.mpr here.slots
  rw [List.reverse_reverse] at slots
  obtain ⟨var, there, isSlot⟩ := exists_getElem?_of_forall₂ slots (List.getElem?_eq_getElem inside)
  refine ⟨part[offset], var, ?_, ?_, isSlot⟩
  · rw [← flatten_coveredFrom proto.groups 0 proto.slots]
    exact (getElem?_flatten covers inside).trans (List.getElem?_eq_getElem inside)
  · have reversed : (params.map (·.2.reverse))[index]? = some framed.2.reverse := by
      rw [List.getElem?_map, listed]
      rfl
    have place := getElem?_flatten reversed (slots.length_eq ▸ inside)
    have before : (((params.map (·.2.reverse)).take index).map List.length).sum =
        ((proto.covered.take index).map List.length).sum := by
      rw [List.map_take, List.map_take, ← lengths_of_declares declares, List.map_map]
      congr 2
      exact List.map_congr_left fun param _ => List.length_reverse
    rwa [before, there] at place

end Depths

theorem ofParam_spec (vars : VarTable) (some_slot : part ≠ []) (cells : ∀ type ∈ part, type.IsCell) :
    let framed := ofParam (declaredType part) (rangeWidth part) vars
    vars.Prolongs framed.1 ∧ Declares framed.1 part framed.2 := by
  unfold ofParam
  rw [flatten_declaredType some_slot cells, rangeWidth_of_cells some_slot cells]
  dsimp only
  split
  · rename_i several
    rw [List.length_reverse] at several
    obtain ⟨prolongs, slots, entry, known, _, type⟩ := aggregate_addVars .param vars part.reverse
    exact ⟨prolongs, slots, entry, known, type.trans (declaredType_of_several several.1).symm⟩
  · rename_i single
    have single : part.length = 1 := by
      have := List.length_pos_iff.mpr some_slot
      rw [List.length_reverse] at single
      omega
    obtain ⟨type, rfl⟩ := List.length_eq_one_iff.mp single
    have found := get?_add_self vars { kind := .param, type }
    exact ⟨.add _ _, .cons ⟨_, found, rfl, rfl, .inl rfl⟩ .nil, _, found, rfl⟩

theorem ofParams_spec (vars : VarTable) (some_slot : ∀ part ∈ parts, part ≠ [])
    (cells : ∀ part ∈ parts, ∀ type ∈ part, type.IsCell) :
    let framed := ofParams vars (parts.map fun part => (declaredType part, rangeWidth part))
    vars.Prolongs framed.1 ∧ List.Forall₂ (Declares framed.1) parts framed.2 := by
  induction parts generalizing vars with
  | nil => exact ⟨.refl _, .nil⟩
  | cons part parts induction =>
      obtain ⟨some_here, some_others⟩ := List.forall_mem_cons.mp some_slot
      obtain ⟨cells_here, cells_others⟩ := List.forall_mem_cons.mp cells
      obtain ⟨first, declares⟩ := ofParam_spec vars some_here cells_here
      obtain ⟨rest, others⟩ := induction (ofParam (declaredType part) (rangeWidth part) vars).1
        some_others cells_others
      exact ⟨first.trans rest, .cons (declares.prolong rest) others⟩

/-- The slots of a result belong together, in the order of its members. -/
theorem ofResult_spec (type : Ty) (vars : VarTable) :
    let framed := ofResult type vars
    vars.Prolongs framed.1 ∧ ∃ whole, List.Forall₂ (framed.1.IsSlotOf .ret whole) type.flatten framed.2 ∧
      (1 < type.flatten.length →
        ∃ entry, framed.1.get? whole = some entry ∧ entry.members = framed.2) := by
  unfold ofResult
  dsimp only
  rw [length_addVars]
  split
  · obtain ⟨prolongs, slots, entry, known, members, _⟩ := aggregate_addVars .ret vars type.flatten
    exact ⟨prolongs, _, slots, fun _ => ⟨entry, known, members⟩⟩
  · rename_i few
    have prolongs := prolongs_addVars .ret vars type.flatten
    generalize type.flatten = types at few prolongs ⊢
    match types with
    | [] => exact ⟨prolongs, 0, .nil, fun many => absurd many few⟩
    | [single] =>
        have found := get?_add_self vars { kind := .ret, type := single }
        exact ⟨prolongs, _, .cons ⟨_, found, rfl, rfl, .inl rfl⟩ .nil, fun many => absurd many few⟩
    | first :: second :: rest => exact absurd (Nat.succ_lt_succ (Nat.succ_pos _)) few

/-- The frame of a prototype with single slots holds the slots of the result and, above them, those of
the parameters, the first one on top. -/
theorem ofProto_spec (proto : Prototype) (vars : VarTable) (cells : ∀ type ∈ proto.slots, type.IsCell) :
    let frame := ofProto proto vars
    ∃ result params, frame.slots = result ++ params.reverse.flatMap (·.2) ∧
      frame.params = params.map (·.1) ∧ List.Forall₂ (Declares frame.vars) proto.covered params ∧
      ∃ whole, List.Forall₂ (frame.vars.IsSlotOf .ret whole) proto.returnType.flatten result ∧
        (1 < proto.returnType.flatten.length →
          ∃ entry, frame.vars.get? whole = some entry ∧ entry.members = result) := by
  have some_slot : ∀ part ∈ proto.covered, part ≠ [] := coveredFrom_ne_nil
  obtain ⟨_, whole, slots, members⟩ := ofResult_spec proto.returnType vars
  obtain ⟨prolongs, declares⟩ := ofParams_spec (ofResult proto.returnType vars).1 some_slot
    (cells_of_mem_covered cells)
  rw [← zip_widths] at prolongs declares
  refine ⟨_, _, rfl, rfl, declares, whole, slots.imp fun _ _ isSlot => isSlot.prolong prolongs,
    fun many => ?_⟩
  obtain ⟨entry, known, listed⟩ := members many
  exact ⟨entry, prolongs _ _ known, listed⟩

end Frame

namespace SlotStack

variable {α : Type} (stack : SlotStack α)

/-- Depths count from the top. -/
theorem peek?_succ (depth : Nat) : stack.peek? (depth + 1) = stack.toList.reverse[depth]? := by
  rw [peek?]
  split
  · rename_i inside
    rw [List.getElem?_reverse (by rw [length_toList]; omega), length_toList, toList,
      Array.getElem?_toList]
    congr 1
    omega
  · rename_i outside
    rw [List.getElem?_eq_none]
    rw [List.length_reverse, length_toList]
    omega

theorem slice_eq (first limit : Nat) : stack.slice first limit = (stack.toList.take limit).drop first := by
  rw [slice, Array.toList_extract, toList, List.extract_eq_take_drop, List.drop_take]

/-- The `width` slots below the topmost `first` ones, bottom first. -/
def under (first width : Nat) : List α :=
  stack.slice (stack.height - first - width) (stack.height - first)

variable {stack}

theorem length_under {first width : Nat} (inside : first + width ≤ stack.height) :
    (stack.under first width).length = width := by
  rw [under, slice_eq, List.length_drop, List.length_take, length_toList]
  omega

/-- The slots of consecutive ranges lie on top of each other, those of the first range on top. -/
theorem take_eq_append_ranges {types : List Ty} {first : Nat}
    (inside : first + ((Prototype.rangesFrom first types).map (·.2)).sum ≤ stack.height) :
    stack.toList.take (stack.height - first) =
      stack.toList.take (stack.height - first - ((Prototype.rangesFrom first types).map (·.2)).sum) ++
        ((Prototype.rangesFrom first types).map fun range =>
          stack.under range.1 range.2).reverse.flatten := by
  induction types generalizing first with
  | nil => simp [Prototype.rangesFrom]
  | cons type types induction =>
      rw [Prototype.rangesFrom] at inside ⊢
      rw [List.map_cons, List.sum_cons] at inside ⊢
      have others := @induction (first + max type.slots 1) (by omega)
      rw [List.map_cons, List.reverse_cons, List.flatten_append, List.flatten_singleton,
        ← List.append_assoc, ← Nat.sub_sub, Nat.sub_sub _ first, ← others, under, slice_eq, ← Nat.sub_sub]
      have split := List.take_append_drop (stack.height - first - max type.slots 1)
        (stack.toList.take (stack.height - first))
      rw [List.take_take, Nat.min_eq_left (Nat.sub_le _ _)] at split
      exact split.symm

end SlotStack

namespace Recovery

/-- A subroutine begins on the slots that its prototype promises: those of the result and above them,
from the top down, those of the parameters. -/
structure BeginsOn (recovery : Recovery) (proto : Prototype) : Prop where
  /-- Nothing lies below the result. -/
  height : recovery.stack.height = proto.returnType.flatten.length + proto.slotCount
  /-- The parameters are declared in order, with the types of the prototype. -/
  params : List.Forall₂ (fun type param => recovery.tree.vars.type param = type) proto.params
    recovery.tree.signature.params
  /-- Every parameter slot is in some range. -/
  covers : ∀ slot < proto.slotCount, ∃ (index : Nat), ∃ range : Nat × Nat, proto.paramRanges[index]? = some range ∧
    range.1 ≤ slot ∧ slot < range.1 + range.2
  /-- A slot in the range of a parameter belongs to it and has the type of the slot. -/
  belongs : ∀ (index : Nat) (range : Nat × Nat) param slot, proto.paramRanges[index]? = some range →
    recovery.tree.signature.params[index]? = some param → range.1 ≤ slot → slot < range.1 + range.2 →
      ∃ type var, proto.slots[slot]? = some type ∧
        recovery.stack.peek? (slot + 1) = some (.var var) ∧
          recovery.tree.vars.IsSlotOf .param param type var
  /-- The slots of the result lie directly beneath, those of an aggregate in the order of its members. -/
  result : ∃ whole slots, recovery.stack.toList.take proto.returnType.flatten.length = slots.map .var ∧
    List.Forall₂ (recovery.tree.vars.IsSlotOf .ret whole) proto.returnType.flatten slots ∧
      (1 < proto.returnType.flatten.length → recovery.tree.vars.members whole = slots)

end Recovery

namespace RecoveryInput

open Prototype

variable {input : RecoveryInput} {sub : Nat} {proto : Prototype}

/-- A function whose parameter slots are single begins on what its prototype promises. -/
theorem start_beginsOn (function : input.kind sub = .function) (known : input.protos[sub]? = some proto)
    (cells : ∀ type ∈ proto.slots, type.IsCell) : (input.start sub).BeginsOn proto := by
  unfold start
  rw [function]
  dsimp only
  rw [known]
  dsimp only
  obtain ⟨result, params, slots, declared, declares, whole, returns, together⟩ :=
    Frame.ofProto_spec proto (Frame.addVars .global (input.emptyTree sub).vars input.globals).1 cells
  generalize Frame.ofProto proto _ = frame at slots declared declares returns together ⊢
  have stack : (SlotStack.empty.pushAll (frame.slots.map StackEntry.var)).toList =
      (result ++ params.reverse.flatMap (·.2)).map .var := by
    rw [SlotStack.toList_pushAll, slots]
    rfl
  have depth : ∀ slot, (SlotStack.empty.pushAll (frame.slots.map StackEntry.var)).peek? (slot + 1) =
      ((params.map (·.2.reverse)).flatten ++ result.reverse)[slot]?.map .var := by
    intro slot
    rw [SlotStack.peek?_succ, stack, ← List.map_reverse, List.getElem?_map, List.reverse_append,
      List.reverse_flatMap, List.reverse_reverse]
    rfl
  constructor
  · rw [← SlotStack.length_toList, stack, List.length_map, List.length_append,
      Frame.length_slots_of_declares declares, returns.length_eq]
  · rw [declared, params_eq_map, List.forall₂_map_left_iff, List.forall₂_map_right_iff]
    refine declares.imp fun part param declares => ?_
    obtain ⟨entry, held, type⟩ := declares.type
    rw [VarTable.type, held]
    exact type
  · intro slot inside
    rw [slotCount, ← flatten_coveredFrom proto.groups 0 proto.slots] at inside
    obtain ⟨index, part, found, above, below⟩ := exists_part_of_lt inside
    exact ⟨index, _, (getElem?_paramRanges cells index).trans (congrArg _ found), above, below⟩
  · intro index range param slot ranged found above below
    rw [declared] at found
    obtain ⟨type, var, known, place, isSlot⟩ :=
      Frame.exists_slot_of_declares declares cells ranged found above below
    refine ⟨type, var, known, ?_, isSlot⟩
    rw [depth, List.getElem?_append_left (List.getElem?_eq_some_iff.mp place).1, place]
    rfl
  · refine ⟨whole, result, ?_, returns, fun many => ?_⟩
    · rw [stack, ← List.map_take, returns.length_eq, List.take_left']
      rfl
    · obtain ⟨entry, held, members⟩ := together many
      exact (VarTable.members_of_get? held).trans members

end RecoveryInput

theorem Node.outline_eq_call {node : Node} {sub : Nat} {name : String} {arguments : List NodeId}
    (same : node.outline = .call sub name arguments) : node = .call sub name arguments := by
  cases node <;> first | exact same | cases same

namespace Recovery

section Values

variable (before after : Recovery)

/-- A node is an expression itself or its copy. -/
def Reuses (original node : NodeId) : Prop :=
  node = original ∨ before.tree.duplicate original = (after.tree, node)

/-- A node is a use of a named variable, or the call result that waited for one. -/
def Names (var : VarId) (node : NodeId) : Prop :=
  match before.pendingCall? var with
  | some (_, call) => node = call
  | none => after.tree.node node = .reference var

/-- A node is the value of an entry. -/
def Spells (node : NodeId) : StackEntry → Prop
  | .literal value => before.Reuses after value node
  | .var var =>
      if before.tree.vars.kind var = .temp then
        match (before.tree.vars.get? var).bind (·.value) with
        | some value => before.Reuses after value node
        | none => after.tree.node node = .placeholder Node.unknownOperand
      else
        before.Names after var node

end Values

/-- A node is the value of several slots, bottom first, and nothing else of the stack: that of the
entry which fills them, a use of the variable that they are the members of, or a vector of them.
Different variables that belong to nothing become the members of a new variable. -/
inductive Builds (before after : Recovery) (node : NodeId) : List StackEntry → Prop
  /-- The slots hold one value. -/
  | entry {width : Nat} {entry : StackEntry} (spells : before.Spells after node entry) :
      Builds before after node (List.replicate (width + 1) entry)
  /-- The slots are all members of one variable. -/
  | whole {entries : List StackEntry} {aggregate : VarId}
      (members : (before.tree.vars.members aggregate).map .var = entries)
      (names : before.Names after aggregate node) : Builds before after node entries
  /-- The slots are the components of a vector. -/
  | vector {first second third : Recovery} {x y z : NodeId} {one two three : StackEntry}
      (z_spells : before.Spells first z three) (y_spells : first.Spells second y two)
      (x_spells : second.Spells third x one) (components : after.tree.node node = .vector x y z) :
      Builds before after node [one, two, three]
  /-- The slots become members of one variable. -/
  | grouped {vars : List VarId} {table : VarTable} {aggregate : VarId}
      (grouped : before.tree.vars.group vars = (table, some aggregate))
      (names : { before with tree := { before.tree with vars := table } }.Names after aggregate node) :
      Builds before after node (vars.map .var)

/-- Nodes are the values of consecutive groups of slots, which are taken off the stack one after
another, the topmost group first. -/
inductive Takes : Recovery → List (List StackEntry) → List NodeId → Recovery → Prop
  /-- Nothing is taken. -/
  | none (recovery : Recovery) : Takes recovery [] [] recovery
  /-- The slots on top are taken, and then the others. -/
  | next {before middle after : Recovery} {below entries : List StackEntry}
      {others : List (List StackEntry)} {node : NodeId} {nodes : List NodeId}
      (top : before.stack.toList = below ++ entries) (builds : before.Builds middle node entries)
      (rest : middle.stack.toList = below) (takes : Takes middle others nodes after) :
      Takes before (entries :: others) (node :: nodes) after

end Recovery

namespace Recover

open Recovery

variable {α β : Type}

/-- A step leaves the stack as it is. -/
def KeepsStack (step : Recover α) : Prop :=
  ∀ before value after, Runs step before value after → after.stack = before.stack

section Stack

variable {step : Recover α} {next : α → Recover β}

theorem KeepsStack.bind (first : KeepsStack step) (second : ∀ value, KeepsStack (next value)) :
    KeepsStack (step >>= next) := by
  intro before value after runs
  obtain ⟨_, _, begun, ended⟩ := runs.split
  exact (second _ _ _ _ ended).trans (first _ _ _ begun)

theorem KeepsStack.done (value : α) : KeepsStack (pure value) := by
  rintro before _ _ ⟨⟩
  rfl

theorem KeepsStack.fail (fault : Fault) : KeepsStack (throw fault : Recover α) := by
  rintro _ _ _ ⟨⟩

theorem KeepsStack.reads {next : Recovery → Recover β} (rest : ∀ recovery, KeepsStack (next recovery)) :
    KeepsStack (get >>= next) :=
  fun _ _ _ runs => rest _ _ _ _ (runs.rest (.reads _))

theorem onTree_keepsStack (change : ScriptTree → ScriptTree) : KeepsStack (onTree change) := by
  rintro before _ _ ⟨⟩
  rfl

theorem addNode_keepsStack (node : Node) : KeepsStack (addNode node) := by
  rintro before _ _ ⟨⟩
  rfl

theorem group_keepsStack (members : List VarId) : KeepsStack (group members) := by
  rintro before _ _ ⟨⟩
  rfl

theorem emitNode_keepsStack (node : Node) : KeepsStack (emitNode node) := by
  rintro before _ _ ⟨⟩
  rfl

theorem declareTogether_keepsStack (members : List VarId) (aggregate : VarId) :
    KeepsStack (declareTogether members aggregate) :=
  (addNode_keepsStack _).bind fun _ => onTree_keepsStack _

theorem resultTarget_keepsStack (slots : List VarId) : KeepsStack (resultTarget slots) := by
  unfold resultTarget
  split
  · exact .done _
  · refine (group_keepsStack _).bind fun found => ?_
    split
    · exact (declareTogether_keepsStack _ _).bind fun _ => .done _
    · exact .done _

/-- A result is attached without taking anything off the stack. -/
theorem attachResult_keepsStack (call width : Nat) : KeepsStack (attachResult call width) := by
  refine .reads fun recovery => ?_
  split
  · exact emitNode_keepsStack _
  · refine (resultTarget_keepsStack _).bind fun target => ?_
    split
    · exact emitNode_keepsStack _
    · refine .reads fun after => ?_
      split
      · exact .done ()
      · exact onTree_keepsStack _

end Stack

section Taking

variable {before after : Recovery} {value : NodeId} {entries : List StackEntry} {below : List StackEntry}

theorem useNamed_spec {var : VarId} (runs : Runs (useNamed var) before value after) :
    after.stack = before.stack ∧ before.Names after var value := by
  unfold Names
  replace runs := runs.rest (.reads _)
  cases found : before.pendingCall? var with
  | some pending =>
      rw [found] at runs
      cases runs
      exact ⟨rfl, rfl⟩
  | none =>
      rw [found] at runs
      cases runs
      exact ⟨rfl, ScriptTree.node_add_self _ _⟩

theorem useTemporary_spec {var : VarId} {live : Bool} (runs : Runs (useTemporary var live) before value after) :
    after.stack = before.stack ∧ match (before.tree.vars.get? var).bind (·.value) with
      | some held => before.Reuses after held value
      | none => after.tree.node value = .placeholder Node.unknownOperand := by
  replace runs := runs.rest (.reads _)
  cases found : (before.tree.vars.get? var).bind (·.value) with
  | some held =>
      rw [found] at runs
      cases live with
      | true =>
          cases runs
          exact ⟨rfl, .inr rfl⟩
      | false =>
          cases runs
          exact ⟨rfl, .inl rfl⟩
  | none =>
      rw [found] at runs
      cases runs
      exact ⟨rfl, ScriptTree.node_add_self _ _⟩

/-- Some entries on top are taken off. -/
theorem toList_truncate_top {stack : SlotStack StackEntry} (top : stack.toList = below ++ entries) :
    (stack.truncate (stack.height - entries.length)).toList = below := by
  rw [SlotStack.toList_truncate, ← SlotStack.length_toList, top, List.length_append,
    Nat.add_sub_cancel, List.take_left']
  rfl

theorem takeEntry_spec {entry : StackEntry} (top : before.stack.toList = below ++ entries)
    (runs : Runs (takeEntry entry entries.length) before value after) :
    after.stack.toList = below ∧ before.Spells after value entry := by
  have rest := toList_truncate_top top
  unfold takeEntry at runs
  replace runs := (runs.rest (onStack_runs _ _)).rest (.reads _)
  cases entry with
  | literal node =>
      dsimp only at runs
      split at runs
      · cases runs
        exact ⟨rest, .inr rfl⟩
      · cases runs
        exact ⟨rest, .inl rfl⟩
  | var var =>
      dsimp only [Spells] at runs ⊢
      split at runs
      · rename_i temporary
        rw [if_pos temporary]
        obtain ⟨stack, spells⟩ := useTemporary_spec runs
        exact ⟨stack ▸ rest, spells⟩
      · rename_i named
        rw [if_neg named]
        obtain ⟨stack, names⟩ := useNamed_spec runs
        exact ⟨stack ▸ rest, names⟩

theorem takeSlot_spec {entry : StackEntry} (top : before.stack.toList = below ++ [entry])
    (runs : Runs takeSlot before value after) :
    after.stack.toList = below ∧ before.Spells after value entry := by
  have peeked : before.stack.peek? 1 = some entry := by
    rw [SlotStack.peek?_succ, top, List.reverse_append]
    rfl
  replace runs := runs.rest (.reads _)
  rw [peeked] at runs
  exact @takeEntry_spec _ _ _ [entry] _ _ top runs

theorem members_of_wholeAggregate? {aggregate : VarId}
    (found : before.wholeAggregate? entries = some aggregate) :
    (before.tree.vars.members aggregate).map .var = entries := by
  unfold wholeAggregate? at found
  split at found
  · obtain ⟨whole, _, found⟩ := Option.bind_eq_some_iff.mp found
    split at found
    · rename_i same
      obtain rfl := Option.some.inj found
      exact same
    · cases found
  · cases found

theorem eq_map_of_mapM_entryVar? {vars : List VarId} (found : entries.mapM entryVar? = some vars) :
    vars.map .var = entries := by
  induction entries generalizing vars with
  | nil =>
      obtain rfl := Option.some.inj found
      rfl
  | cons entry entries induction =>
      rw [List.mapM_cons] at found
      obtain ⟨first, here, found⟩ := Option.bind_eq_some_iff.mp found
      obtain ⟨others, there, same⟩ := Option.bind_eq_some_iff.mp found
      obtain rfl := Option.some.inj same
      rw [List.map_cons, induction there]
      cases entry with
      | literal node => cases here
      | var id =>
          obtain rfl := Option.some.inj here
          rfl

theorem eq_map_of_looseVars? {vars : List VarId} (found : before.looseVars? entries = some vars) :
    vars.map .var = entries := by
  obtain ⟨all, mapped, found⟩ := Option.bind_eq_some_iff.mp found
  obtain ⟨first, _, found⟩ := Option.bind_eq_some_iff.mp found
  dsimp only at found
  split at found
  · obtain rfl := Option.some.inj found
    exact eq_map_of_mapM_entryVar? mapped
  · cases found

/-- Entries that are grouped are different variables, which become the members of a new one. -/
theorem groupLoose_spec {aggregate : VarId} (runs : Runs (groupLoose entries) before (some aggregate) after) :
    ∃ vars table, vars.map .var = entries ∧ before.tree.vars.group vars = (table, some aggregate) ∧
      after = { before with tree := { before.tree with vars := table } } := by
  replace runs := runs.rest (.reads _)
  split at runs
  · rename_i vars found
    split at runs
    · cases runs
    · obtain ⟨grouped, same⟩ := Prod.mk.inj (Except.ok.inj ((group_runs vars before).symm.trans runs))
      exact ⟨vars, _, eq_map_of_looseVars? found, Prod.ext rfl grouped, same.symm⟩
  · cases runs

theorem takeComposite_spec (top : before.stack.toList = below ++ entries)
    (runs : Runs (takeComposite entries) before value after) :
    after.stack.toList = below ∧ before.Builds after value entries := by
  have rest := toList_truncate_top top
  unfold takeComposite at runs
  replace runs := runs.rest (.reads _)
  dsimp only at runs
  split at runs
  · rename_i aggregate found
    obtain ⟨stack, names⟩ := useNamed_spec (runs.rest (onStack_runs _ _))
    exact ⟨stack ▸ rest, .whole (members_of_wholeAggregate? found) names⟩
  · split at runs
    · rename_i components
      obtain ⟨one, two, three, rfl⟩ := List.length_eq_three.mp components.1
      obtain ⟨z, first, takes_z, runs⟩ := runs.split
      obtain ⟨y, second, takes_y, runs⟩ := runs.split
      obtain ⟨x, third, takes_x, runs⟩ := runs.split
      have top_z : before.stack.toList = below ++ [one] ++ [two] ++ [three] := by simp [top]
      obtain ⟨top_y, z_spells⟩ := takeSlot_spec top_z takes_z
      obtain ⟨top_x, y_spells⟩ := takeSlot_spec top_y takes_y
      obtain ⟨third_rest, x_spells⟩ := takeSlot_spec top_x takes_x
      cases runs
      exact ⟨third_rest, .vector z_spells y_spells x_spells (ScriptTree.node_add_self _ _)⟩
    · obtain ⟨found, middle, groups, runs⟩ := runs.split
      cases found with
      | none => cases runs
      | some aggregate =>
          obtain ⟨vars, table, rfl, grouped, rfl⟩ := groupLoose_spec groups
          obtain ⟨stack, names⟩ := useNamed_spec (runs.rest (onStack_runs _ _))
          exact ⟨stack ▸ rest, .grouped grouped names⟩

/-- A value is made of the slots on top, if there are as many. -/
theorem takeValue_spec (some_entry : entries ≠ []) (top : before.stack.toList = below ++ entries)
    (runs : Runs (takeValue entries.length) before value after) :
    after.stack.toList = below ∧ before.Builds after value entries := by
  have popped : before.stack.popMany? entries.length =
      some (entries, before.stack.truncate (before.stack.height - entries.length)) := by
    have count : before.stack.height = below.length + entries.length := by
      rw [← SlotStack.length_toList, top, List.length_append]
    have slice : before.stack.slice (before.stack.height - entries.length) before.stack.height =
        entries := by
      rw [SlotStack.slice_eq, ← SlotStack.length_toList, List.take_length, top, List.length_append,
        Nat.add_sub_cancel, List.drop_left]
    rw [SlotStack.popMany?, if_pos (by omega)]
    exact congrArg (fun popped => some (popped, _)) slice
  unfold takeValue at runs
  replace runs := runs.rest (.reads _)
  rw [popped] at runs
  obtain ⟨first, rest, rfl⟩ := List.exists_cons_of_ne_nil some_entry
  dsimp only at runs
  split at runs
  · rename_i same
    have filled : first :: rest = List.replicate (rest.length + 1) first := by
      rw [List.replicate_succ, ← List.eq_replicate_of_mem]
      simpa using same
    obtain ⟨stack, spells⟩ := takeEntry_spec top runs
    exact ⟨stack, filled ▸ .entry spells⟩
  · exact takeComposite_spec top runs

/-- Arguments are taken off the stack one after another. -/
theorem callArguments_spec {parts : List (List StackEntry)} {values : List NodeId} (index : Nat)
    (some_entry : ∀ part ∈ parts, part ≠ []) (top : before.stack.toList = below ++ parts.reverse.flatten)
    (runs : Runs (callArguments index (parts.map List.length)) before values after) :
    after.stack.toList = below ∧ before.Takes parts values after := by
  induction parts generalizing before values index with
  | nil =>
      cases runs
      exact ⟨by simpa using top, .none _⟩
  | cons part parts induction =>
      obtain ⟨some_here, some_others⟩ := List.forall_mem_cons.mp some_entry
      rw [List.reverse_cons, List.flatten_append, ← List.append_assoc, List.flatten_singleton] at top
      obtain ⟨argument, middle, takes, runs⟩ := runs.split
      obtain ⟨arguments, last, others, ends⟩ := runs.split
      cases ends
      unfold callArgument at takes
      replace takes := takes.rest (.reads _)
      have high : ¬before.stack.height < part.length := by
        rw [← SlotStack.length_toList, top, List.length_append]
        omega
      rw [if_neg high] at takes
      obtain ⟨rest, builds⟩ := takeValue_spec some_here top takes
      obtain ⟨remains, behind⟩ := induction (index + 1) some_others rest others
      exact ⟨remains, .next top builds rest behind⟩

/-- A call of a subroutine with a prototype takes the arguments for its ranges, one after another, and
lists them. -/
theorem call_spec {input : RecoveryInput} {command sub : Nat} {proto : Prototype}
    {parts : List (List StackEntry)} (target : input.calls.target? command = some sub)
    (known : input.protos[sub]? = some proto) (some_entry : ∀ part ∈ parts, part ≠ [])
    (widths : proto.paramRanges.map (·.2) = parts.map List.length)
    (top : before.stack.toList = below ++ parts.reverse.flatten)
    (runs : Runs (call input command) before () after) :
    ∃ call arguments, before.tree.size ≤ call ∧
      after.tree.node call = .call sub (input.name sub) arguments ∧ after.stack.toList = below ∧
        ∃ taken, before.Takes parts arguments taken := by
  unfold call at runs
  rw [target] at runs
  dsimp only at runs
  rw [known] at runs
  dsimp only [Option.elim] at runs
  rw [widths] at runs
  obtain ⟨arguments, taken, takes, runs⟩ := runs.split
  obtain ⟨rest, values⟩ := callArguments_spec 0 some_entry top takes
  have larger := (callArguments_quiet _ _ takes).keeps.tree.size
  replace runs := runs.rest (addNode_runs _ _)
  have attaches : ∀ step : Recover Unit, KeepsScopes step → KeepsStack step →
      Runs step { taken with tree := (taken.tree.add (.call sub (input.name sub) arguments)).1 } ()
        after →
      after.tree.node taken.tree.size = .call sub (input.name sub) arguments ∧
        after.stack.toList = below := by
    intro step scopes stack runs
    have shape := (scopes _ _ _ runs).tree.shape taken.tree.size (by simp)
    rw [ScriptTree.node_add_self] at shape
    exact ⟨Node.outline_eq_call (Node.outline_congr shape), (stack _ _ _ runs) ▸ rest⟩
  have made : after.tree.node taken.tree.size = .call sub (input.name sub) arguments ∧
      after.stack.toList = below := by
    split at runs
    · exact attaches _ (Quiets.keeps fun _ => emitStatement_quiet _) (emitNode_keepsStack _) runs
    · exact attaches _ (Quiets.keeps fun _ => attachResult_quiet _ _) (attachResult_keepsStack _ _) runs
  exact ⟨taken.tree.size, arguments, larger, made.1, made.2, taken, values⟩

end Taking

end Recover

theorem Recovery.Takes.length_eq {before after : Recovery} {parts : List (List StackEntry)}
    {nodes : List NodeId} (takes : before.Takes parts nodes after) : nodes.length = parts.length := by
  induction takes with
  | none => rfl
  | next _ _ _ _ induction => exact congrArg (· + 1) induction

namespace RecoveryInput

open Prototype

/-- A caller and a callee agree about the slots of a prototype whose parameter slots are single.  A
function begins with its parameters in the slots of their ranges, and the slots of the result directly
beneath.  A call that finds as many slots as the parameters have pops exactly these and lists one
argument for each declared parameter, made of the slots of its range. -/
theorem call_agrees_with_frame (input : RecoveryInput) (sub : Nat) (former : Prototype) (slots : List Ty)
    (groups : List (Nat × Nat)) (returnType : Ty) (returnDepth : Option Nat)
    (cells : ∀ type ∈ slots, type.IsCell)
    (known : input.protos[sub]? = some (former.install slots groups returnType returnDepth)) :
    let proto := former.install slots groups returnType returnDepth
    (input.kind sub = .function → (input.start sub).BeginsOn proto) ∧
      ∀ command caller after, input.calls.target? command = some sub →
        proto.slotCount ≤ caller.stack.height → Recover.Runs (Recover.call input command) caller () after →
          after.stack = caller.stack.truncate (caller.stack.height - proto.slotCount) ∧
          ∃ call arguments, caller.tree.size ≤ call ∧
            after.tree.node call = .call sub (input.name sub) arguments ∧
              arguments.length = proto.params.length ∧
                ∃ taken, caller.Takes (proto.paramRanges.map fun range =>
                  caller.stack.under range.1 range.2) arguments taken := by
  intro proto
  refine ⟨fun function => start_beginsOn function known cells, fun command caller after target high runs => ?_⟩
  have total : (proto.paramRanges.map (·.2)).sum = proto.slotCount := by
    rw [widths_of_cells cells, ← List.length_flatten, covered, flatten_coveredFrom]
    rfl
  have top := @SlotStack.take_eq_append_ranges _ caller.stack proto.params 0
    (by rw [Nat.zero_add]; exact total ▸ high)
  rw [← paramRanges, total, Nat.sub_zero, ← SlotStack.length_toList, List.take_length,
    SlotStack.length_toList] at top
  have lengths : ∀ range ∈ proto.paramRanges, (caller.stack.under range.1 range.2).length = range.2 := by
    intro range listed
    have inside := (inside_of_mem_rangesFrom listed).2
    rw [← paramRanges, total, Nat.zero_add] at inside
    exact SlotStack.length_under (inside.trans high)
  have widths : proto.paramRanges.map (·.2) = (proto.paramRanges.map fun range =>
      caller.stack.under range.1 range.2).map List.length := by
    rw [List.map_map]
    exact List.map_congr_left fun range listed => (lengths range listed).symm
  have some_entry : ∀ part ∈ proto.paramRanges.map fun range =>
      caller.stack.under range.1 range.2, part ≠ [] := by
    refine List.forall_mem_map.mpr fun range listed nothing => ?_
    have width := lengths range listed
    rw [nothing] at width
    exact absurd (inside_of_mem_rangesFrom listed).1 (width ▸ Nat.lt_irrefl 0)
  obtain ⟨call, arguments, new, node, rest, taken, takes⟩ :=
    Recover.call_spec target known some_entry widths top runs
  refine ⟨SlotStack.eq_of_toList (rest.trans (SlotStack.toList_truncate _ _).symm), call, arguments, new,
    node, ?_, taken, takes⟩
  rw [takes.length_eq, List.length_map, paramRanges, ← List.length_map (·.2), widths_rangesFrom,
    List.length_map]

/-- A program that calls a function of a number and a vector, which gives a string. -/
def moving : RecoveryInput :=
  let program : Program := .ofNonempty
    [[⟨13, .simple .reserve .string⟩, ⟨15, .constant (.float ⟨0⟩)⟩, ⟨21, .constant (.float ⟨1⟩)⟩,
      ⟨27, .constant (.float ⟨2⟩)⟩, ⟨33, .constant (.int 7)⟩, ⟨39, .jump .call 14⟩,
      ⟨45, ⟨.moveStack, .void, .offset (-4)⟩⟩, ⟨51, .simple .ret .void⟩],
     [⟨53, ⟨.moveStack, .void, .offset (-16)⟩⟩, ⟨59, .simple .ret .void⟩]] (by simp)
  { program
    table := Liveness.markedTable program (Array.replicate 10 true)
    calls := ⟨⟨#[[(1, 5)], []], #[[], [(0, 5)]], 1⟩, (Array.replicate 10 none).set 5 (some 1), [[1], [0]]⟩
    catalog := .empty
    protos := #[.install {} [] [] .void none,
      .install {} [.int, .float, .float, .float] [(1, 3)] .string (some 4)]
    globals := []
    layout := ⟨0, none, none, none, 0⟩
    names := ["main", "sub1"]
    settings := {} }

/-- The call takes the number and the three numbers of the vector and leaves the slot of the result. -/
theorem call_agrees_with_frame_moving : ∃ laden after call arguments,
    Recover.Runs (Recover.visitAll moving [0, 1, 2, 3, 4]) (moving.start 0) () laden ∧
      laden.stack.height = 5 ∧ Recover.Runs (Recover.call moving 5) laden () after ∧
        after.stack = laden.stack.truncate 1 ∧ after.tree.node call = .call 1 "sub1" arguments ∧
          arguments.length = 2 ∧ (moving.start 1).stack.height = 5 := by
  have check : ((Recover.visitAll moving [0, 1, 2, 3, 4]).run (moving.start 0)).toOption.any (fun laden =>
      laden.2.stack.height = 5 ∧ ((Recover.call moving 5).run laden.2).toOption.isSome) = true := by
    decide +kernel
  have two : (Prototype.install {} [.int, .float, .float, .float] [(1, 3)] .string
      (some 4)).params.length = 2 := by
    decide +kernel
  obtain ⟨frame, calls⟩ := call_agrees_with_frame moving 1 {} [.int, .float, .float, .float] [(1, 3)]
    .string (some 4) (by decide) rfl
  cases loads : (Recover.visitAll moving [0, 1, 2, 3, 4]).run (moving.start 0) with
  | error fault => simp [loads, Except.toOption] at check
  | ok pair =>
      obtain ⟨⟨⟩, laden⟩ := pair
      rw [loads] at check
      obtain ⟨high, succeeds⟩ := of_decide_eq_true check
      cases ran : (Recover.call moving 5).run laden with
      | error fault =>
          rw [ran] at succeeds
          cases succeeds
      | ok pair =>
          obtain ⟨⟨⟩, after⟩ := pair
          have high : laden.stack.height = 5 := high
          obtain ⟨rest, call, arguments, -, node, count, -⟩ :=
            calls 5 laden after rfl (high ▸ by decide) ran
          have rest : after.stack = laden.stack.truncate (laden.stack.height - 4) := rest
          rw [high] at rest
          exact ⟨laden, after, call, arguments, loads, high, ran, rest, node, count.trans two,
            (frame rfl).height⟩

end RecoveryInput

end NwScript
