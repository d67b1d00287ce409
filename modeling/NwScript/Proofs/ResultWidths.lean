import NwScript.Proofs.RefinementRounds

/-!
# Widths of results

A value takes one stack slot for each of its undetermined parts, although the slots of its type do not
count them.  A result that is not fully typed is filled in by a type of as many counted slots, which is
therefore narrower than the result by one slot for each undetermined part.  So a determined type of the
result's own width never fills it in.
-/

namespace NwScript

namespace Ty

mutual

/-- Number of undetermined parts at any depth. -/
def unknowns : Ty → Nat
  | .simple code => if code = .invalid then 1 else 0
  | .aggregate members => unknownsOf members

/-- Number of undetermined parts of consecutive members. -/
def unknownsOf : List Ty → Nat
  | [] => 0
  | member :: members => member.unknowns + unknownsOf members

end

mutual

/-- Number of stack slots that a value occupies when each undetermined part takes one. -/
def width : Ty → Nat
  | .simple code => if code = .invalid then 1 else code.slots
  | .aggregate members => widthOf members

/-- Number of stack slots that consecutive members occupy. -/
def widthOf : List Ty → Nat
  | [] => 0
  | member :: members => member.width + widthOf members

end

mutual

/-- The slots of a type leave out its undetermined parts. -/
theorem width_eq : ∀ type : Ty, type.width = type.slots + type.unknowns
  | .simple code => by
      by_cases undetermined : code = .invalid
      · subst undetermined
        rfl
      · simp [width, unknowns, slots, undetermined]
  | .aggregate members => by
      rw [width, slots, unknowns, widthOf_eq members]

theorem widthOf_eq : ∀ members : List Ty, widthOf members = slotsOf members + unknownsOf members
  | [] => rfl
  | member :: members => by
      rw [widthOf, slotsOf, unknownsOf, width_eq member, widthOf_eq members]
      omega

end

theorem unknowns_of_not_isKnown {type : Ty} (undetermined : type.isKnown = false) :
    type.unknowns = 1 := by
  obtain rfl : type = invalid := by simpa [isKnown] using undetermined
  rfl

theorem unknownsOf_pos {members : List Ty} (undetermined : members.all isKnown = false) :
    0 < unknownsOf members := by
  induction members with
  | nil => cases undetermined
  | cons member members induction =>
      rw [unknownsOf]
      rw [List.all_cons, Bool.and_eq_false_iff] at undetermined
      rcases undetermined with first | others
      · have one := unknowns_of_not_isKnown first
        omega
      · have some_left := induction others
        omega

/-- A type that is not fully typed has an undetermined part. -/
theorem unknowns_pos {type : Ty} (partly : type.isFullyTyped = false) : 0 < type.unknowns := by
  cases type with
  | simple code =>
      rw [unknowns_of_not_isKnown partly]
      exact Nat.one_pos
  | aggregate members => exact unknownsOf_pos partly

end Ty

namespace Prototype

theorem refineReturn_iff (proto : Prototype) (type : Ty) :
    (proto.refineReturn type).1 = true ↔ proto.returnType.isFullyTyped = false ∧
      type.isFullyTyped = true ∧ type.slots = proto.returnType.slots := by
  rw [refineReturn]
  split
  · rename_i fits
    simp only [Bool.and_eq_true, Bool.not_eq_true', decide_eq_true_eq] at fits
    exact iff_of_true rfl ⟨fits.1.2, fits.2, fits.1.1⟩
  · rename_i fails
    refine iff_of_false Bool.false_ne_true ?_
    rintro ⟨partly, fully, same⟩
    simp [partly, fully, same] at fails

/-- What a filled-in result leaves of the prototype. -/
structure FillsResult (proto refined : Prototype) (type : Ty) : Prop where
  /-- The type is installed. -/
  result : refined.returnType = type
  /-- The result is marked as fully typed. -/
  typed : refined.flags.returnTyped = true
  /-- The result stays where it is. -/
  depth : refined.returnDepth = proto.returnDepth
  /-- Parameters keep their slots. -/
  slots : refined.slots = proto.slots
  /-- Parameters keep their groups. -/
  groups : refined.groups = proto.groups
  /-- The search is as far as before. -/
  status : refined.status = proto.status

theorem fillsResult_refineReturn {proto : Prototype} {type : Ty}
    (changed : (proto.refineReturn type).1 = true) :
    proto.FillsResult (proto.refineReturn type).2 type := by
  have fully := ((refineReturn_iff proto type).mp changed).2.1
  rw [refineReturn] at changed ⊢
  split at changed
  · rename_i fits
    rw [if_pos fits]
    exact ⟨rfl, fully, rfl, rfl, rfl, rfl⟩
  · cases changed

/-- A result is filled in exactly if it is not fully typed, the type is, and the type occupies fewer
slots by those of the result's undetermined parts.  So a determined type of the result's own width
leaves it unknown, and only a narrower one is installed.  The place of the result plays no part, and
what is not filled in stays as it is. -/
theorem refineReturn_narrows (proto : Prototype) (type : Ty) :
    ((proto.refineReturn type).1 = true ↔ proto.returnType.isFullyTyped = false ∧
      type.isFullyTyped = true ∧
      type.width + proto.returnType.unknowns = proto.returnType.width + type.unknowns) ∧
    ((proto.refineReturn type).1 = true →
      proto.FillsResult (proto.refineReturn type).2 type ∧
        (type.unknowns = 0 → type.width < proto.returnType.width)) ∧
    ((proto.refineReturn type).1 = false → (proto.refineReturn type).2 = proto) ∧
    (type.unknowns = 0 → type.width = proto.returnType.width →
      proto.refineReturn type = (false, proto)) := by
  have counted := type.width_eq
  have result := proto.returnType.width_eq
  have narrows : (proto.refineReturn type).1 = true → type.unknowns = 0 →
      type.width < proto.returnType.width := by
    intro changed determined
    obtain ⟨partly, _, same⟩ := (refineReturn_iff proto type).mp changed
    have missing := Ty.unknowns_pos partly
    omega
  refine ⟨?_, fun changed => ⟨fillsResult_refineReturn changed, narrows changed⟩,
    refineReturn_of_unchanged, ?_⟩
  · rw [refineReturn_iff]
    refine and_congr_right fun _ => and_congr_right fun _ => ?_
    omega
  · intro determined same
    have refused : (proto.refineReturn type).1 = false := by
      rw [Bool.eq_false_iff]
      exact fun changed => Nat.ne_of_lt (narrows changed determined) same
    exact Prod.ext refused (refineReturn_of_unchanged refused)

/-- A prototype whose result is known to lie in one slot and has no type yet. -/
def untypedResult : Prototype :=
  { status := .done, flags := { paramsTyped := true }, returnType := .invalid, returnDepth := some 0 }

/-- An integer does not fill in a result of one slot, and no value at all does. -/
theorem refineReturn_refuses_int :
    untypedResult.returnDepth.isSome ∧ untypedResult.returnType.isFullyTyped = false ∧
      Ty.int.isFullyTyped = true ∧ Ty.int.width = untypedResult.returnType.width ∧
      untypedResult.refineReturn .int = (false, untypedResult) ∧
      Ty.void.width ≠ untypedResult.returnType.width ∧
      (untypedResult.refineReturn .void).1 = true := by
  decide

end Prototype
end NwScript
