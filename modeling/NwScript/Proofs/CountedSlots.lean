import NwScript.Proofs.CallFrames
import NwScript.Proofs.DeclaredHeights

/-!
# Counted slots

A type says in four ways which slots a value takes: it counts them, it lists what they hold, it has
members that take slots one after another, and it finds the member that starts at a slot.  Counting and
listing are recursions of their own over nested members, of which the vector has three without being
spelled as an aggregate.  All four agree.
-/

namespace NwScript

namespace Ty

theorem slotsOf_eq_sum (members : List Ty) : slotsOf members = (members.map slots).sum := by
  induction members with
  | nil => rfl
  | cons member members induction => rw [slotsOf_cons, induction, List.map_cons, List.sum_cons]

theorem flattenAll_eq_flatMap (members : List Ty) : flattenAll members = members.flatMap flatten := by
  induction members with
  | nil => rfl
  | cons member members induction => rw [flattenAll_cons, induction, List.flatMap_cons]

mutual

/-- Each slot holds a single value. -/
theorem isCell_of_mem_flatten : (type : Ty) → ∀ part ∈ type.flatten, part.IsCell
  | .simple code => by cases code <;> decide
  | .aggregate members => isCell_of_mem_flattenAll members

theorem isCell_of_mem_flattenAll : (members : List Ty) → ∀ part ∈ flattenAll members, part.IsCell
  | [] => fun _ listed => absurd listed List.not_mem_nil
  | member :: members => by
      rw [flattenAll_cons, List.forall_mem_append]
      exact ⟨isCell_of_mem_flatten member, isCell_of_mem_flattenAll members⟩

end

section Members

variable {members : List Ty}

/-- The member that is found at a slot is the first one that starts there. -/
theorem memberAtSlotFrom?_eq_some_iff {slot index start place : Nat} {member : Ty} :
    memberAtSlotFrom? slot index start members = some (place, member) ↔
      ∃ step, place = index + step ∧ members[step]? = some member ∧
        start + slotsOf (members.take step) = slot ∧
        ∀ earlier < step, start + slotsOf (members.take earlier) ≠ slot := by
  induction members generalizing index start with
  | nil => simp [memberAtSlotFrom?]
  | cons first members induction =>
      rw [memberAtSlotFrom?]
      by_cases here : start = slot
      · rw [if_pos here]
        constructor
        · rintro ⟨⟩
          exact ⟨0, rfl, rfl, here, fun _ less => absurd less (Nat.not_lt_zero _)⟩
        · rintro ⟨step, rfl, found, -, earlier⟩
          cases step with
          | zero =>
              obtain rfl := Option.some.inj found
              rfl
          | succ step => exact absurd here (earlier 0 (Nat.succ_pos step))
      · rw [if_neg here, induction]
        constructor
        · rintro ⟨step, rfl, found, starts, earlier⟩
          refine ⟨step + 1, by omega, found, ?_, fun before less => ?_⟩
          · rw [List.take_succ_cons, slotsOf_cons]
            omega
          · cases before with
            | zero => exact here
            | succ before =>
                rw [List.take_succ_cons, slotsOf_cons, ← Nat.add_assoc]
                exact earlier before (Nat.lt_of_succ_lt_succ less)
        · rintro ⟨step, rfl, found, starts, earlier⟩
          cases step with
          | zero => exact absurd starts here
          | succ step =>
              refine ⟨step, by omega, found, ?_, fun before less => ?_⟩
              · rw [List.take_succ_cons, slotsOf_cons] at starts
                omega
              · have apart := earlier (before + 1) (Nat.succ_lt_succ less)
                rw [List.take_succ_cons, slotsOf_cons, ← Nat.add_assoc] at apart
                exact apart

/-- Members that take slots start one behind the other. -/
theorem slotsOf_take_lt (wide : ∀ member ∈ members, 0 < member.slots) {first last : Nat}
    (before : first < last) (inside : last ≤ members.length) :
    slotsOf (members.take first) < slotsOf (members.take last) := by
  induction members generalizing first last with
  | nil => exact absurd (before.trans_le inside) (Nat.not_lt_zero first)
  | cons member members induction =>
      obtain ⟨here, others⟩ := List.forall_mem_cons.mp wide
      obtain ⟨last, rfl⟩ := Nat.exists_eq_succ_of_ne_zero (Nat.ne_zero_of_lt before)
      rw [List.take_succ_cons, slotsOf_cons]
      cases first with
      | zero =>
          rw [List.take_zero, slotsOf_nil]
          omega
      | succ first =>
          have less := induction others (Nat.lt_of_succ_lt_succ before) (Nat.le_of_succ_le_succ inside)
          rw [List.take_succ_cons, slotsOf_cons]
          omega

/-- Of members that take slots, one is found where the slots of the members before it end. -/
theorem memberAtSlot?_eq_some_iff (wide : ∀ member ∈ members, 0 < member.slots)
    {slot index : Nat} {member : Ty} :
    memberAtSlot? slot members = some (index, member) ↔
      members[index]? = some member ∧ slotsOf (members.take index) = slot := by
  rw [memberAtSlot?, memberAtSlotFrom?_eq_some_iff]
  constructor
  · rintro ⟨step, rfl, found, starts, -⟩
    rw [Nat.zero_add] at starts ⊢
    exact ⟨found, starts⟩
  · rintro ⟨found, rfl⟩
    obtain ⟨inside, -⟩ := List.getElem?_eq_some_iff.mp found
    refine ⟨index, (Nat.zero_add index).symm, found, Nat.zero_add _, fun earlier less => ?_⟩
    rw [Nat.zero_add]
    exact (slotsOf_take_lt wide less inside.le).ne

end Members

/-- The slots of a value.  A type lists as many as it counts, and each of them holds a single value.
An aggregate, which three floats make a vector, takes the slots of its members and holds what they hold.
If all members take slots, the one that is found at a slot is the one before which as many slots lie. -/
theorem slots_agree_throughout :
    (∀ type : Ty, type.flatten.length = type.slots ∧ ∀ part ∈ type.flatten, part.IsCell) ∧
    (∀ members : List Ty, (ofMembers members).slots = (members.map slots).sum ∧
      (ofMembers members).flatten = members.flatMap flatten ∧
      (ofMembers members).members? = some members) ∧
    ∀ (type : Ty) (members : List Ty), type.members? = some members →
      type.slots = (members.map slots).sum ∧ type.flatten = members.flatMap flatten ∧
      ((∀ member ∈ members, 0 < member.slots) → ∀ (slot index : Nat) (member : Ty),
        memberAtSlot? slot members = some (index, member) ↔
          members[index]? = some member ∧ ((members.take index).map slots).sum = slot) := by
  have whole : ∀ (type : Ty) (members : List Ty), type.members? = some members →
      type.slots = (members.map slots).sum ∧ type.flatten = members.flatMap flatten := by
    intro type members has
    rw [slots_of_members? has, flatten_of_members? has, slotsOf_eq_sum, flattenAll_eq_flatMap]
    exact ⟨rfl, rfl⟩
  refine ⟨fun type => ⟨type.length_flatten, type.isCell_of_mem_flatten⟩, fun members => ?_,
    fun type members has => ?_⟩
  · obtain ⟨counted, listed⟩ := whole _ _ (members?_ofMembers members)
    exact ⟨counted, listed, members?_ofMembers members⟩
  · obtain ⟨counted, listed⟩ := whole type members has
    refine ⟨counted, listed, fun wide slot index member => ?_⟩
    rw [memberAtSlot?_eq_some_iff wide, slotsOf_eq_sum]

/-- A vector and an aggregate that lie in another one. -/
theorem slots_agree_throughout_nested :
    (ofMembers [int, ofMembers [float, float, float], ofMembers [string, object]]).members? =
        some [int, vector, ofMembers [string, object]] ∧
      (∀ member ∈ [int, vector, ofMembers [string, object]], 0 < member.slots) ∧
      (ofMembers [int, ofMembers [float, float, float], ofMembers [string, object]]).slots = 6 ∧
      (ofMembers [int, ofMembers [float, float, float], ofMembers [string, object]]).flatten =
        [int, float, float, float, string, object] ∧
      memberAtSlot? 4 [int, vector, ofMembers [string, object]] =
        some (2, ofMembers [string, object]) := by
  have wide : ∀ member ∈ [int, vector, ofMembers [string, object]], 0 < member.slots := by decide
  obtain ⟨-, built, agree⟩ := slots_agree_throughout
  have has := (built [int, ofMembers [float, float, float], ofMembers [string, object]]).2.2
  obtain ⟨counted, listed, found⟩ := agree _ _ has
  exact ⟨has, wide, counted, listed, (found wide 4 2 _).mpr ⟨rfl, rfl⟩⟩

end Ty
end NwScript
