import Mathlib.Logic.Relation
import NwScript.Proofs.AnalysisOutcome
import NwScript.Proofs.CoherentPrototypes
import NwScript.Proofs.Recursion
import NwScript.Proofs.SettledPrototypes
import NwScript.Proofs.ShownWords

/-!
# Types that hide what is not determined

Whether a type is fully typed is read off the type and its members.  The members of these are not looked
at, so an aggregate in an aggregate can hide that something is not determined.  That is the only way in
which a type that is called fully typed has an undetermined part: where no aggregate is in another one,
the marks of a prototype say that everything is known.
-/

namespace NwScript

namespace Ty

/-- A type is a member of another one. -/
def HasMember (whole member : Ty) : Prop :=
  ∃ members, whole.members? = some members ∧ member ∈ members

/-- Neither a type nor anything that descending through members leads to is undetermined. -/
def IsKnownThroughout (type : Ty) : Prop :=
  ∀ part, Relation.ReflTransGen HasMember type part → part ≠ .invalid

/-- A member has an undetermined part. -/
def HidesUnknown (type : Ty) : Prop :=
  ∃ member, type.HasMember member ∧ Relation.TransGen HasMember member .invalid

section Descent

variable {type member : Ty} {code : TypeCode} {members : List Ty}

theorem hasMember_aggregate : (aggregate members).HasMember member ↔ member ∈ members := by
  constructor
  · rintro ⟨_, ⟨⟩, listed⟩
    exact listed
  · exact fun listed => ⟨members, rfl, listed⟩

/-- Only vectors have members without being spelled as aggregates, and these are floats. -/
theorem eq_float_of_hasMember (has : (simple code).HasMember member) : member = .float := by
  obtain ⟨members, found, listed⟩ := has
  cases code with
  | vector =>
      obtain rfl := Option.some.inj found
      simpa using listed
  | _ => cases found

theorem not_hasMember_float : ¬float.HasMember member := by
  rintro ⟨_, ⟨⟩, _⟩

/-- A type is fully typed if neither it nor a member of it is undetermined. -/
theorem isFullyTyped_iff_members (type : Ty) : type.isFullyTyped = true ↔
    type ≠ .invalid ∧ ∀ member, type.HasMember member → member ≠ .invalid := by
  cases type with
  | simple code =>
      refine ⟨fun known => ⟨of_decide_eq_true known, fun member has => ?_⟩,
        fun both => decide_eq_true both.1⟩
      rw [eq_float_of_hasMember has]
      decide
  | aggregate members =>
      rw [isFullyTyped, List.all_eq_true]
      refine ⟨fun known => ⟨by simp, fun member has => ?_⟩, fun both member listed => ?_⟩
      · exact of_decide_eq_true (known member (hasMember_aggregate.mp has))
      · exact decide_eq_true (both.2 member (hasMember_aggregate.mpr listed))

/-- A type is known throughout exactly if it is fully typed and hides nothing. -/
theorem isKnownThroughout_iff (type : Ty) :
    type.IsKnownThroughout ↔ type.isFullyTyped = true ∧ ¬type.HidesUnknown := by
  rw [isFullyTyped_iff_members]
  constructor
  · refine fun known => ⟨⟨known type .refl, fun member has => known member (.single has)⟩, ?_⟩
    rintro ⟨member, has, leads⟩
    exact known .invalid (.head has leads.to_reflTransGen) rfl
  · rintro ⟨⟨known, members⟩, nothing⟩ part leads rfl
    obtain same | ⟨member, has, deeper⟩ := leads.cases_head
    · exact known same
    · rcases Relation.reflTransGen_iff_eq_or_transGen.mp deeper with same | further
      · exact members member has same.symm
      · exact nothing ⟨member, has, further⟩

/-- Whatever is fully typed and not known throughout hides what is not known. -/
theorem isKnownThroughout_or_hidesUnknown (typed : type.isFullyTyped = true) :
    type.IsKnownThroughout ∨ type.HidesUnknown := by
  by_cases hides : type.HidesUnknown
  · exact .inr hides
  · exact .inl (type.isKnownThroughout_iff.mpr ⟨typed, hides⟩)

/-- Descending, one step at a time. -/
theorem isKnownThroughout_iff_members : type.IsKnownThroughout ↔
    type ≠ .invalid ∧ ∀ member, type.HasMember member → member.IsKnownThroughout := by
  constructor
  · exact fun known => ⟨known type .refl, fun member has part leads => known part (.head has leads)⟩
  · rintro ⟨here, members⟩ part leads rfl
    obtain same | ⟨member, has, deeper⟩ := leads.cases_head
    · exact here same
    · exact members member has _ deeper rfl

theorem isKnownThroughout_aggregate : (aggregate members).IsKnownThroughout ↔
    ∀ member ∈ members, member.IsKnownThroughout := by
  rw [isKnownThroughout_iff_members]
  constructor
  · exact fun known member listed => known.2 member (hasMember_aggregate.mpr listed)
  · exact fun known => ⟨Ty.noConfusion, fun member has => known member (hasMember_aggregate.mp has)⟩

theorem isKnownThroughout_simple : (simple code).IsKnownThroughout ↔ code ≠ .invalid := by
  rw [isKnownThroughout_iff_members]
  constructor
  · exact fun known same => known.1 (congrArg simple same)
  · refine fun known => ⟨fun same => known (simple.inj same), fun member has => ?_⟩
    rw [eq_float_of_hasMember has, isKnownThroughout_iff_members]
    exact ⟨by decide, fun _ deeper => absurd deeper not_hasMember_float⟩

mutual

/-- Whether a type is known throughout can be computed. -/
theorem isDetermined_iff : (type : Ty) → (type.isDetermined = true ↔ type.IsKnownThroughout)
  | .simple code => by rw [isDetermined, decide_eq_true_iff, isKnownThroughout_simple]
  | .aggregate members => (areDetermined_iff members).trans isKnownThroughout_aggregate.symm

theorem areDetermined_iff : (members : List Ty) →
    (areDetermined members = true ↔ ∀ member ∈ members, member.IsKnownThroughout)
  | [] => iff_of_true rfl fun _ listed => absurd listed List.not_mem_nil
  | member :: members => by
      rw [areDetermined_cons, isDetermined_iff member, areDetermined_iff members, List.forall_mem_cons]

end

instance (type : Ty) : Decidable type.IsKnownThroughout :=
  decidable_of_iff _ (isDetermined_iff type)

/-- What a plain slot holds hides nothing. -/
theorem IsPlain.isKnownThroughout (plain : type.IsPlain) (known : type ≠ .invalid) :
    type.IsKnownThroughout := by
  cases type with
  | simple code => exact isKnownThroughout_simple.mpr fun same => known (congrArg simple same)
  | aggregate members => exact (plain.resolve_left known).elim

theorem isKnownThroughout_ofMembers (known : ∀ member ∈ members, member.IsKnownThroughout) :
    (ofMembers members).IsKnownThroughout := by
  rw [ofMembers]
  split
  · exact isKnownThroughout_simple.mpr TypeCode.noConfusion
  · exact isKnownThroughout_aggregate.mpr known

end Descent

end Ty

namespace Prototype

/-- A prototype that a new one has become: changes were made to it, its marks on typing were set from its
types, and the other marks were set. -/
inductive Arises : Prototype → Prop where
  /-- A new prototype. -/
  | new : Arises {}
  /-- A change is made. -/
  | change {before after : Prototype} (arises : Arises before) (change : Change before after) :
      Arises after
  /-- The marks on typing are set anew. -/
  | refresh {proto : Prototype} (arises : Arises proto) : Arises proto.refreshFlags
  /-- What the subroutine is to its program is marked. -/
  | mark {proto : Prototype} (arises : Arises proto) (main globals recursive : Bool) :
      Arises { proto with flags := { proto.flags with main, globals, recursive } }

/-- What the marks of a prototype say about what is determined. -/
structure MarksKnow (proto : Prototype) : Prop where
  /-- No slot of a prototype with marked parameters is undetermined. -/
  slots : proto.flags.paramsTyped = true → ∀ type ∈ proto.slots, type ≠ .invalid
  /-- Marked parameters hide what is not determined in them. -/
  params : proto.flags.paramsTyped = true →
    ∀ type ∈ proto.params, type.IsKnownThroughout ∨ type.HidesUnknown
  /-- If slots hold single values, nothing is hidden in marked parameters. -/
  plain : proto.flags.paramsTyped = true → (∀ type ∈ proto.slots, type.IsPlain) →
    ∀ type ∈ proto.params, type.IsKnownThroughout
  /-- A marked result hides what is not determined in it. -/
  result : proto.flags.returnTyped = true →
    proto.returnType.IsKnownThroughout ∨ proto.returnType.HidesUnknown

variable {proto before after : Prototype}

/-- Marks are never where they are not due. -/
theorem Arises.isHonest (arises : proto.Arises) : proto.IsHonest := by
  induction arises with
  | new =>
      exact ⟨fun typed => absurd typed Bool.false_ne_true,
        fun typed => absurd typed Bool.false_ne_true⟩
  | change _ change induction => exact change.isHonest induction
  | refresh => exact isHonest_refreshFlags _
  | mark _ _ _ _ induction => exact ⟨induction.params, induction.result⟩

theorem Arises.of_evolves (arises : before.Arises) (evolves : before.Evolves after) : after.Arises :=
  evolves.keeps Arises (fun change arises => arises.change change) arises

/-- Every prototype that an analysis ends with arises. -/
theorem arises_of_ofProgram {program : Program} {catalog : ActionCatalog} {settings : Settings}
    {analysis : Analysis} (done : Analysis.ofProgram program catalog settings = .ok analysis) :
    ∀ proto ∈ analysis.inference.protos, proto.Arises := by
  obtain ⟨table, after, -, -, -, ran⟩ := Analysis.exists_of_ofProgram done
  obtain ⟨reaches, same⟩ := InferenceInput.infer_reaches _ _ _ ran
  intro proto listed
  obtain ⟨sub, inside, rfl⟩ := Array.mem_iff_getElem.mp listed
  have bound : sub < program.subroutineCount := (Analysis.settled_of_ofProgram done).1 ▸ inside
  have evolves := reaches.evolves sub
  rw [InferenceInput.proto_initialState bound, InferenceState.proto, ← same,
    Array.getD_eq_getD_getElem?, Array.getElem?_eq_getElem inside, Option.getD_some] at evolves
  exact (Arises.new.mark _ _ _).of_evolves evolves

/-- Parameters that are made of plain slots are known throughout if the slots are known. -/
theorem isKnownThroughout_params (plain : ∀ type ∈ proto.slots, type.IsPlain)
    (known : ∀ type ∈ proto.slots, type ≠ .invalid) : ∀ type ∈ proto.params, type.IsKnownThroughout := by
  intro type listed
  rw [params_eq_map] at listed
  obtain ⟨part, covered, rfl⟩ := List.mem_map.mp listed
  have inside : ∀ type ∈ part, type.IsKnownThroughout := by
    intro type there
    have slot : type ∈ proto.slots := by
      rw [← flatten_coveredFrom proto.groups 0 proto.slots]
      exact List.mem_flatten_of_mem covered there
    exact (plain type slot).isKnownThroughout (known type slot)
  match part with
  | [] => exact absurd rfl (coveredFrom_ne_nil [] covered)
  | [type] => exact inside type List.mem_cons_self
  | first :: second :: rest =>
      rw [declaredType_of_several (by simp)]
      exact Ty.isKnownThroughout_ofMembers fun member there => inside member (List.mem_reverse.mp there)

theorem IsHonest.marksKnow (honest : proto.IsHonest) : proto.MarksKnow := by
  have known : proto.flags.paramsTyped = true → ∀ type ∈ proto.slots, type ≠ .invalid :=
    fun marked type listed => of_decide_eq_true (isKnown_of_params (honest.params marked) type listed)
  exact {
    slots := known
    params := fun marked type listed =>
      Ty.isKnownThroughout_or_hidesUnknown (List.all_eq_true.mp (honest.params marked) type listed)
    plain := fun marked plain => isKnownThroughout_params plain (known marked)
    result := fun marked => Ty.isKnownThroughout_or_hidesUnknown (honest.result marked) }

/-- A type is called fully typed if neither it nor a member of it is undetermined, so this says that it is
known throughout unless a member hides something.  The marks of every prototype that arises are as exact
as that. -/
theorem marks_know_all_but_hidden (type : Ty) (arises : proto.Arises) :
    (type.isFullyTyped = true ↔ type ≠ .invalid ∧ ∀ member, type.HasMember member → member ≠ .invalid) ∧
    (type.IsKnownThroughout ↔ type.isFullyTyped = true ∧ ¬type.HidesUnknown) ∧
    proto.MarksKnow :=
  ⟨type.isFullyTyped_iff_members, type.isKnownThroughout_iff, arises.isHonest.marksKnow⟩

/-- An integer beside an aggregate whose first member is undetermined. -/
def halfKnown : Ty :=
  .aggregate [.int, .aggregate [.invalid, .int]]

/-- The prototype of a subroutine that takes such a value and returns one. -/
def passing : Prototype :=
  install {} [halfKnown] [] halfKnown (some 3)

theorem arises_passing : passing.Arises :=
  .change .new (.install _ _ _ _ _)

theorem paramsTyped_passing : passing.flags.paramsTyped = true := by
  decide +kernel

theorem marks_know_all_but_hidden_passing :
    halfKnown.isFullyTyped = true ∧ halfKnown.HidesUnknown ∧
    passing.Arises ∧ passing.flags.paramsTyped = true ∧ passing.flags.returnTyped = true ∧
    (∀ type ∈ passing.slots, type ≠ .invalid) ∧ passing.returnType.HidesUnknown := by
  obtain ⟨-, known, marks⟩ := marks_know_all_but_hidden halfKnown arises_passing
  have unknown : ¬halfKnown.IsKnownThroughout := by decide
  have hides : halfKnown.HidesUnknown := by
    by_contra nothing
    exact unknown (known.mpr ⟨rfl, nothing⟩)
  have result : passing.flags.returnTyped = true := by decide
  exact ⟨rfl, hides, arises_passing, paramsTyped_passing, result, marks.slots paramsTyped_passing,
    (marks.result result).resolve_left unknown⟩

/-- A prototype can be marked although its parameter and its result have undetermined parts. -/
theorem marked_not_known_throughout :
    halfKnown.isFullyTyped = true ∧ ¬halfKnown.IsKnownThroughout ∧
    passing.Arises ∧ passing.slots = [halfKnown] ∧ passing.returnType = halfKnown ∧
    passing.flags.paramsTyped = true ∧ passing.flags.returnTyped = true :=
  ⟨rfl, by decide, arises_passing, rfl, rfl, paramsTyped_passing, by decide⟩

end Prototype

end NwScript
