import Mathlib.Algebra.Ring.Nat
import Mathlib.Data.List.Forall2
import NwScript.Prototype
import NwScript.Recovery.Frame

/-!
# Ranges of parameters

Each declared parameter covers some slots: those of a group, or one.  The slots that the parameters
cover follow one another and are all that there are, but a range is as wide as the type of its
parameter, and an undetermined member of an aggregate counts as no slot.  So the ranges are as wide as
the slots exactly if no group holds an undetermined slot.
-/

namespace NwScript

namespace Ty

theorem slotsOf_append (left right : List Ty) :
    slotsOf (left ++ right) = slotsOf left + slotsOf right := by
  induction left with
  | nil => simp
  | cons member left induction => simp [induction, Nat.add_assoc]

theorem slotsOf_reverse (members : List Ty) : slotsOf members.reverse = slotsOf members := by
  induction members with
  | nil => rfl
  | cons member members induction =>
      rw [List.reverse_cons, slotsOf_append, induction, slotsOf_cons, slotsOf_nil, slotsOf_cons]
      omega

/-- An aggregate has the members that it was built from, also if it is the vector. -/
theorem members?_ofMembers (members : List Ty) : (ofMembers members).members? = some members := by
  rw [ofMembers]
  split
  · rename_i floats
    rw [floats]
    rfl
  · rfl

/-- Only a vector has members without being spelled as an aggregate. -/
theorem eq_of_members? {type : Ty} {members : List Ty} (has : type.members? = some members) :
    type = vector ∧ members = [float, float, float] ∨ type = aggregate members := by
  cases type with
  | simple code =>
      cases code with
      | vector => exact .inl ⟨rfl, (Option.some.inj has).symm⟩
      | _ => cases has
  | aggregate others => exact .inr (congrArg aggregate (Option.some.inj has))

/-- A value takes the slots of its members. -/
theorem slots_of_members? {type : Ty} {members : List Ty} (has : type.members? = some members) :
    type.slots = slotsOf members := by
  rcases eq_of_members? has with ⟨rfl, rfl⟩ | rfl <;> rfl

theorem flatten_of_members? {type : Ty} {members : List Ty} (has : type.members? = some members) :
    type.flatten = flattenAll members := by
  rcases eq_of_members? has with ⟨rfl, rfl⟩ | rfl <;> rfl

/-- Three floats take as many slots as a vector. -/
theorem slots_ofMembers (members : List Ty) : (ofMembers members).slots = slotsOf members :=
  slots_of_members? (members?_ofMembers members)

/-- What a parameter slot holds: a value of one slot, or something undetermined. -/
def IsSlot (type : Ty) : Prop :=
  type = invalid ∨ type.slots = 1

instance (type : Ty) : Decidable type.IsSlot :=
  inferInstanceAs (Decidable (_ ∨ _))

theorem IsSlot.slots_le {type : Ty} (slot : type.IsSlot) : type.slots ≤ 1 := by
  rcases slot with rfl | one
  · exact Nat.zero_le 1
  · exact Nat.le_of_eq one

/-- Some slots count fully exactly if none is undetermined. -/
theorem slotsOf_le_length {types : List Ty} (slots : ∀ type ∈ types, type.IsSlot) :
    slotsOf types ≤ types.length ∧ (slotsOf types = types.length ↔ invalid ∉ types) := by
  induction types with
  | nil => simp
  | cons type types induction =>
      obtain ⟨slot, others⟩ := List.forall_mem_cons.mp slots
      obtain ⟨short, whole⟩ := induction others
      rw [slotsOf_cons, List.length_cons, List.mem_cons, not_or, ← whole]
      rcases slot with rfl | one
      · rw [slots_invalid]
        exact ⟨by omega, ⟨fun same => by omega, fun both => absurd rfl both.1⟩⟩
      · have known : invalid ≠ type := by
          rintro rfl
          cases one
        rw [one]
        exact ⟨by omega, ⟨fun same => ⟨known, by omega⟩, fun both => by omega⟩⟩

end Ty

namespace Prototype

/-- The slots of each declared parameter, of those that begin with number `slot`. -/
def coveredFrom (groups : List (Nat × Nat)) (slot : Nat) : List Ty → List (List Ty)
  | [] => []
  | type :: rest =>
      match found : groupAt? groups slot (rest.length + 1) with
      | some count =>
          (type :: rest).take count :: coveredFrom groups (slot + count) (rest.drop (count - 1))
      | none => [type] :: coveredFrom groups (slot + 1) rest
termination_by slots => slots.length
decreasing_by
  · simp only [List.length_drop, List.length_cons]
    omega
  · simp

/-- The slots of each declared parameter, the caller's top slot first. -/
def covered (proto : Prototype) : List (List Ty) :=
  coveredFrom proto.groups 0 proto.slots

/-- The type that a parameter is declared with: that of its only slot, or an aggregate. -/
def declaredType : List Ty → Ty
  | [type] => type
  | types => .ofMembers types.reverse

/-- Slots that a range of their own stands for. -/
def rangeWidth (types : List Ty) : Nat :=
  max (declaredType types).slots 1

/-- A parameter covers one slot, or only slots that are determined. -/
def IsWhole (types : List Ty) : Prop :=
  types.length = 1 ∨ .invalid ∉ types

instance (types : List Ty) : Decidable (IsWhole types) :=
  inferInstanceAs (Decidable (_ ∨ _))

/-- Slots of all ranges together. -/
def paramWidth (proto : Prototype) : Nat :=
  (proto.paramRanges.map (·.2)).sum

section Covering

variable {groups : List (Nat × Nat)} {slot : Nat} {types others : List Ty}

/-- The parameters cover the slots one after another. -/
theorem flatten_coveredFrom (groups : List (Nat × Nat)) (slot : Nat) (types : List Ty) :
    (coveredFrom groups slot types).flatten = types := by
  fun_induction coveredFrom groups slot types with
  | case1 => rfl
  | case2 slot type rest count found induction =>
      obtain ⟨many, _⟩ := groupAt?_bounds found
      obtain ⟨more, rfl⟩ := Nat.exists_eq_add_of_lt many
      rw [List.flatten_cons, induction]
      simp
  | case3 slot type rest _ induction => rw [List.flatten_cons, induction, List.singleton_append]

theorem declaredType_of_several (several : 1 < types.length) :
    declaredType types = .ofMembers types.reverse := by
  match types with
  | first :: second :: rest => rfl
  | [_] => exact absurd several (Nat.lt_irrefl 1)

/-- A parameter covers one slot, or it is declared as an aggregate of the slots it covers. -/
theorem paramsFrom_eq_map (groups : List (Nat × Nat)) (slot : Nat) (types : List Ty) :
    paramsFrom groups slot types = (coveredFrom groups slot types).map declaredType := by
  fun_induction coveredFrom groups slot types with
  | case1 => rw [paramsFrom, List.map_nil]
  | case2 slot type rest count found induction =>
      obtain ⟨many, inside⟩ := groupAt?_bounds found
      have several : 1 < ((type :: rest).take count).length := by
        rw [List.length_take, List.length_cons]
        omega
      rw [paramsFrom]
      split
      · rename_i again
        obtain rfl := Option.some.inj (found.symm.trans again)
        rw [List.map_cons, declaredType_of_several several, induction]
      · rename_i missing
        cases found.symm.trans missing
  | case3 slot type rest missing induction =>
      rw [paramsFrom]
      split
      · rename_i found
        cases missing.symm.trans found
      · rw [List.map_cons, induction]
        rfl

/-- Every parameter covers some slot. -/
theorem coveredFrom_ne_nil : ∀ covered ∈ coveredFrom groups slot types, covered ≠ [] := by
  fun_induction coveredFrom groups slot types with
  | case1 => exact fun _ listed => absurd listed List.not_mem_nil
  | case2 slot type rest count found induction =>
      obtain ⟨many, _⟩ := groupAt?_bounds found
      refine List.forall_mem_cons.mpr ⟨?_, induction⟩
      obtain ⟨more, rfl⟩ := Nat.exists_eq_add_of_lt many
      simp
  | case3 slot type rest _ induction =>
      exact List.forall_mem_cons.mpr ⟨List.cons_ne_nil _ _, induction⟩

/-- Slots that are related one by one are covered in the same way. -/
theorem forall₂_coveredFrom {Related : Ty → Ty → Prop} (groups : List (Nat × Nat)) (slot : Nat)
    (related : List.Forall₂ Related types others) :
    List.Forall₂ (List.Forall₂ Related) (coveredFrom groups slot types)
      (coveredFrom groups slot others) := by
  fun_induction coveredFrom groups slot types generalizing others with
  | case1 =>
      cases related
      rw [coveredFrom]
      exact .nil
  | case2 slot type rest count found induction =>
      cases related with
      | @cons _ other _ others first behind =>
          rw [behind.length_eq] at found
          rw [coveredFrom]
          split
          · rename_i again
            obtain rfl := Option.some.inj (found.symm.trans again)
            exact .cons (List.forall₂_take _ (.cons first behind))
              (induction (List.forall₂_drop _ behind))
          · rename_i missing
            cases found.symm.trans missing
  | case3 slot type rest missing induction =>
      cases related with
      | @cons _ other _ others first behind =>
          rw [behind.length_eq] at missing
          rw [coveredFrom]
          split
          · rename_i found
            cases missing.symm.trans found
          · exact .cons (.cons first .nil) (induction behind)

end Covering

section Widths

/-- A range is at most as wide as the slots it stands for, and narrower only for several of them of
which one is undetermined. -/
theorem rangeWidth_le {types : List Ty} (some_slot : types ≠ []) (slots : ∀ type ∈ types, type.IsSlot) :
    rangeWidth types ≤ types.length ∧
      (rangeWidth types = types.length ↔ IsWhole types) := by
  rw [IsWhole]
  match types with
  | [type] =>
      have short := (slots type (List.mem_singleton_self type)).slots_le
      simp only [rangeWidth, declaredType, List.length_singleton, true_or, iff_true]
      omega
  | first :: second :: rest =>
      obtain ⟨short, whole⟩ := Ty.slotsOf_le_length slots
      have declared : (declaredType (first :: second :: rest)).slots =
          Ty.slotsOf (first :: second :: rest) := by
        rw [declaredType_of_several (by simp), Ty.slots_ofMembers, Ty.slotsOf_reverse]
      rw [rangeWidth, declared, ← whole]
      simp only [List.length_cons] at short ⊢
      omega

/-- Ranges follow one another. -/
theorem getElem?_rangesFrom (slot : Nat) (types : List Ty) (index : Nat) :
    (rangesFrom slot types)[index]? = types[index]?.map fun type =>
      (slot + ((rangesFrom slot types).take index |>.map (·.2)).sum, max type.slots 1) := by
  induction types generalizing slot index with
  | nil => simp [rangesFrom]
  | cons type types induction =>
      cases index with
      | zero => simp [rangesFrom]
      | succ index => simp [rangesFrom, induction, Nat.add_assoc]

theorem widths_rangesFrom (slot : Nat) (types : List Ty) :
    (rangesFrom slot types).map (·.2) = types.map fun type => max type.slots 1 := by
  induction types generalizing slot with
  | nil => rfl
  | cons type types induction => rw [rangesFrom, List.map_cons, List.map_cons, induction]

theorem widths_eq_map (proto : Prototype) :
    proto.paramRanges.map (·.2) = proto.covered.map rangeWidth := by
  rw [paramRanges, widths_rangesFrom, params, paramsFrom_eq_map, List.map_map]
  rfl

/-- Numbers with bounds of their own reach the sum of these exactly if each reaches its own. -/
theorem sum_le_length_flatten {parts : List (List Ty)} {Whole : List Ty → Prop}
    (each : ∀ part ∈ parts, rangeWidth part ≤ part.length ∧
      (rangeWidth part = part.length ↔ Whole part)) :
    (parts.map rangeWidth).sum ≤ parts.flatten.length ∧
      ((parts.map rangeWidth).sum = parts.flatten.length ↔ ∀ part ∈ parts, Whole part) := by
  induction parts with
  | nil => simp
  | cons part parts induction =>
      obtain ⟨⟨narrow, whole⟩, others⟩ := List.forall_mem_cons.mp each
      obtain ⟨short, all⟩ := induction others
      rw [List.map_cons, List.sum_cons, List.flatten_cons, List.length_append, List.forall_mem_cons,
        ← whole, ← all]
      omega

/-- The ranges of parameters are as wide as the slots, unless a group holds an undetermined one. -/
theorem paramWidth_le (proto : Prototype) (slots : ∀ type ∈ proto.slots, type.IsSlot) :
    proto.paramWidth ≤ proto.slotCount ∧ (proto.paramWidth = proto.slotCount ↔
      ∀ types ∈ proto.covered, IsWhole types) := by
  have whole := flatten_coveredFrom proto.groups 0 proto.slots
  rw [paramWidth, slotCount, widths_eq_map, ← whole]
  refine sum_le_length_flatten fun part listed => rangeWidth_le (coveredFrom_ne_nil part listed) ?_
  intro type inside
  refine slots type ?_
  rw [← whole]
  exact List.mem_flatten_of_mem listed inside

end Widths

section Frames

theorem lengths_ofParams (vars : VarTable) (params : List (Ty × Nat)) :
    (Frame.ofParams vars params).2.map (fun param => param.2.length) = params.map (·.2) := by
  induction params generalizing vars with
  | nil => rfl
  | cons param params induction => simp [Frame.ofParams, induction]

/-- A frame has as many slots as the result and the ranges of the parameters together. -/
theorem length_frame (proto : Prototype) (vars : VarTable) :
    (Frame.ofProto proto vars).slots.length = proto.returnType.flatten.length + proto.paramWidth := by
  have result : ∀ vars, (Frame.ofResult proto.returnType vars).2.length =
      proto.returnType.flatten.length := by
    intro vars
    rw [Frame.ofResult]
    dsimp only
    split <;> simp
  have same : (proto.params.zip (proto.paramRanges.map (·.2))).map (·.2) =
      proto.paramRanges.map (·.2) := by
    refine List.map_snd_zip (Nat.le_of_eq ?_)
    rw [paramRanges, widths_rangesFrom, List.length_map]
  have params : ∀ vars, ((Frame.ofParams vars
      (proto.params.zip (proto.paramRanges.map (·.2)))).2.reverse.flatMap (·.2)).length =
        proto.paramWidth := by
    intro vars
    rw [List.length_flatMap, List.map_reverse, List.sum_reverse, lengths_ofParams, same, paramWidth]
  rw [Frame.ofProto]
  dsimp only
  rw [List.length_append, result, params]

end Frames

section Refining

/-- Something that a call or a walk shows about a prototype. -/
inductive Lesson where
  /-- The type of a parameter slot. -/
  | param (slot : Nat) (type : Ty)
  /-- The type of the result. -/
  | result (type : Ty)
  deriving DecidableEq, Repr

/-- Take over what is shown, as far as it says more than is known. -/
def learn (proto : Prototype) : Lesson → Prototype
  | .param slot type => (proto.refineParam slot type).2
  | .result type => (proto.refineReturn type).2

/-- Take over one thing after another. -/
def learnAll (proto : Prototype) (lessons : List Lesson) : Prototype :=
  lessons.foldl learn proto

/-- A type stays unless it was undetermined; then it can become that of a value of one slot. -/
def IsRefined (former later : Ty) : Prop :=
  later = former ∨ former = .invalid ∧ later.slots = 1

theorem IsRefined.isSlot {former later : Ty} (refined : IsRefined former later)
    (slot : former.IsSlot) : later.IsSlot := by
  rcases refined with rfl | ⟨_, one⟩
  · exact slot
  · exact .inr one

theorem IsRefined.trans {first second third : Ty} (former : IsRefined first second)
    (later : IsRefined second third) : IsRefined first third := by
  rcases later with rfl | ⟨unknown, one⟩
  · exact former
  · rcases former with rfl | ⟨_, known⟩
    · exact .inr ⟨unknown, one⟩
    · rw [unknown] at known
      cases known

theorem forall₂_isRefined_trans {first second third : List Ty}
    (former : List.Forall₂ IsRefined first second) (later : List.Forall₂ IsRefined second third) :
    List.Forall₂ IsRefined first third := by
  induction former generalizing third with
  | nil => exact later
  | cons here _ induction =>
      cases later with
      | cons there behind => exact .cons (here.trans there) (induction behind)

/-- What related elements pass on holds of all of them. -/
theorem forall_of_forall₂ {α : Type} {Related : α → α → Prop} {Good : α → Prop} {former later : List α}
    (carries : ∀ {one other}, Related one other → Good one → Good other)
    (related : List.Forall₂ Related former later) (good : ∀ one ∈ former, Good one) :
    ∀ other ∈ later, Good other := by
  induction related with
  | nil => exact good
  | cons first _ induction =>
      obtain ⟨here, behind⟩ := List.forall_mem_cons.mp good
      exact List.forall_mem_cons.mpr ⟨carries first here, induction behind⟩

theorem isWhole_of_refined {former later : List Ty} (refined : List.Forall₂ IsRefined former later)
    (whole : IsWhole former) : IsWhole later := by
  rcases whole with one | known
  · exact .inl (refined.length_eq.symm.trans one)
  · refine .inr fun listed => ?_
    have determined : ∀ type ∈ later, type ≠ .invalid := by
      refine forall_of_forall₂ (fun {one other} step known => ?_) refined fun type listed same =>
        known (same ▸ listed)
      rcases step with rfl | ⟨unknown, _⟩
      · exact known
      · exact absurd unknown known
    exact determined _ listed rfl

theorem learn_spec (proto : Prototype) (lesson : Lesson) :
    (proto.learn lesson).groups = proto.groups ∧
      List.Forall₂ IsRefined proto.slots (proto.learn lesson).slots := by
  have same : List.Forall₂ IsRefined proto.slots proto.slots :=
    List.forall₂_same.mpr fun _ _ => .inl rfl
  cases lesson with
  | result type =>
      rw [learn, refineReturn]
      split
      · exact ⟨rfl, same⟩
      · exact ⟨rfl, same⟩
  | param slot type =>
      rw [learn, refineParam]
      split
      · rename_i current found
        split
        · rename_i unknown
          simp only [Bool.and_eq_true, Bool.not_eq_true', decide_eq_true_eq] at unknown
          refine ⟨rfl, List.forall₂_iff_get.mpr ⟨by simp [refreshFlags], ?_⟩⟩
          intro index here there
          simp only [refreshFlags, List.get_eq_getElem, List.getElem_set]
          split
          · rename_i same
            subst same
            rw [List.getElem?_eq_getElem here] at found
            obtain ⟨⟨undetermined, _⟩, one⟩ := unknown
            refine .inr ⟨?_, one⟩
            rw [Option.some.inj found]
            simpa [Ty.isKnown] using undetermined
          · exact .inl rfl
        · exact ⟨rfl, same⟩
      · exact ⟨rfl, same⟩

theorem learnAll_spec (proto : Prototype) (lessons : List Lesson) :
    (proto.learnAll lessons).groups = proto.groups ∧
      List.Forall₂ IsRefined proto.slots (proto.learnAll lessons).slots := by
  induction lessons generalizing proto with
  | nil => exact ⟨rfl, List.forall₂_same.mpr fun _ _ => .inl rfl⟩
  | cons lesson lessons induction =>
      obtain ⟨groups, slots⟩ := proto.learn_spec lesson
      obtain ⟨later_groups, later_slots⟩ := induction (proto.learn lesson)
      exact ⟨later_groups.trans groups, forall₂_isRefined_trans slots later_slots⟩

/-- After any lessons the ranges of parameters follow one another, one for each declared
parameter, and a frame has room for them.  They are never wider than the slots, of which there are as
many as were installed, and as wide as these exactly if no group of several slots holds an
undetermined one; where the installed slots are so, the refined ones are. -/
theorem paramRanges_tile (proto : Prototype) (slots : List Ty) (groups : List (Nat × Nat))
    (returnType : Ty) (returnDepth : Option Nat) (lessons : List Lesson)
    (one_slot : ∀ type ∈ slots, type.IsSlot) :
    let reached := (proto.install slots groups returnType returnDepth).learnAll lessons
    reached.slotCount = slots.length ∧
      reached.paramRanges.length = reached.params.length ∧
      (∀ index range, reached.paramRanges[index]? = some range →
        range.1 = ((reached.paramRanges.take index).map (·.2)).sum) ∧
      (∀ vars, (Frame.ofProto reached vars).slots.length =
        reached.returnType.flatten.length + reached.paramWidth) ∧
      reached.paramWidth ≤ reached.slotCount ∧
      (reached.paramWidth = reached.slotCount ↔ ∀ types ∈ reached.covered, IsWhole types) ∧
      ((∀ types ∈ coveredFrom groups 0 slots, IsWhole types) → reached.paramWidth = reached.slotCount) := by
  intro reached
  obtain ⟨same_groups, refined⟩ :=
    (proto.install slots groups returnType returnDepth).learnAll_spec lessons
  have one_slot_still : ∀ type ∈ reached.slots, type.IsSlot :=
    forall_of_forall₂ IsRefined.isSlot refined one_slot
  obtain ⟨narrow, whole⟩ := reached.paramWidth_le one_slot_still
  refine ⟨refined.length_eq.symm, ?_, ?_, reached.length_frame, narrow, whole, fun known => whole.mpr ?_⟩
  · have lengths := congrArg List.length (widths_rangesFrom 0 reached.params)
    simpa [paramRanges] using lengths
  · intro index range found
    rw [paramRanges, getElem?_rangesFrom] at found
    obtain ⟨type, _, rfl⟩ := Option.map_eq_some_iff.mp found
    exact Nat.zero_add _
  · have covered := forall₂_coveredFrom groups 0 refined
    rw [Prototype.covered, same_groups]
    exact forall_of_forall₂ isWhole_of_refined covered known

/-- Once both slots of a group are determined the ranges are as wide as the slots. -/
theorem paramRanges_tile_refined :
    let reached := (Prototype.install {} [.int, .invalid] [(0, 2)] .void none).learnAll
      [.param 0 .string, .param 1 .float]
    reached.paramRanges = [(0, 2)] ∧ reached.paramWidth = reached.slotCount := by
  obtain ⟨_, _, _, _, _, whole, _⟩ := paramRanges_tile {} [.int, .invalid] [(0, 2)] .void none
    [.param 0 .string, .param 1 .float] (by decide)
  exact ⟨by decide +kernel, whole.mpr (by decide +kernel)⟩

/-- A group of two slots of which one is undetermined has a range of one slot. -/
theorem paramRanges_fall_short :
    let installed := Prototype.install {} [.int, .invalid] [(0, 2)] .void none
    (∀ type ∈ [Ty.int, .invalid], type.IsSlot) ∧ installed.slotCount = 2 ∧
      installed.params = [.aggregate [.invalid, .int]] ∧ installed.paramRanges = [(0, 1)] := by
  refine ⟨by decide, rfl, ?_, ?_⟩ <;> decide +kernel

end Refining

end Prototype
end NwScript
