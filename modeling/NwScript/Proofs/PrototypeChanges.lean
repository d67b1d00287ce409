import Mathlib.Logic.Relation
import NwScript.Proofs.RefinementGrowth

/-!
# Changes of prototypes

Inference is a chain of attempts, guesses and refinements, and each of these changes prototypes in a few
ways only.  So what the few changes keep holds in every state that inference passes through.
-/

namespace NwScript

namespace Prototype

/-- A lesson says nothing new, or slots and result change and the marks are set anew. -/
theorem learn_cases (proto : Prototype) (lesson : Lesson) : proto.learn lesson = proto ∨
    ∃ slots returnType, proto.learn lesson = refreshFlags { proto with slots, returnType } := by
  cases lesson with
  | param slot type =>
      rw [learn, refineParam]
      split
      · split
        · exact .inr ⟨_, _, rfl⟩
        · exact .inl rfl
      · exact .inl rfl
  | result type =>
      rw [learn, refineReturn]
      split
      · exact .inr ⟨_, _, rfl⟩
      · exact .inl rfl

/-- One change that inference makes to a prototype. -/
inductive Change : Prototype → Prototype → Prop where
  /-- The search goes on or ends. -/
  | status (proto : Prototype) (status : ProtoStatus) : Change proto { proto with status }
  /-- Another path was tried. -/
  | decisions (proto : Prototype) (decisions : DecisionQueue) : Change proto { proto with decisions }
  /-- Slots, groups and a result are installed. -/
  | install (proto : Prototype) (slots : List Ty) (groups : List (Nat × Nat)) (returnType : Ty)
      (returnDepth : Option Nat) : Change proto (proto.install slots groups returnType returnDepth)
  /-- It is a guess from now on, or no guess any more. -/
  | fallback (proto : Prototype) (fallback : Bool) :
      Change proto { proto with flags := { proto.flags with fallback } }
  /-- Something is learned about it. -/
  | learn (proto : Prototype) (lesson : Lesson) : Change proto (proto.learn lesson)

/-- Any number of changes, one after another. -/
def Evolves : Prototype → Prototype → Prop :=
  Relation.ReflTransGen Change

variable {before between after : Prototype}

theorem Evolves.refl (proto : Prototype) : proto.Evolves proto :=
  Relation.ReflTransGen.refl

theorem Evolves.trans (first : before.Evolves between) (second : between.Evolves after) :
    before.Evolves after :=
  Relation.ReflTransGen.trans first second

theorem Change.evolves (change : Change before after) : before.Evolves after :=
  Relation.ReflTransGen.single change

/-- What every change keeps is kept. -/
theorem Evolves.keeps (holds : Prototype → Prop)
    (each : ∀ {before after}, Change before after → holds before → holds after)
    (evolves : before.Evolves after) (begins : holds before) : holds after := by
  induction evolves with
  | refl => exact begins
  | tail _ change induction => exact each change induction

theorem evolves_mergeOutcome (proto : Prototype) (outcome : WalkOutcome) :
    proto.Evolves (InferenceInput.mergeOutcome proto outcome).2 := by
  unfold InferenceInput.mergeOutcome
  split
  · exact (Change.install proto _ _ _ _).evolves.trans (Change.fallback _ false).evolves
  · split
    · have params : proto.Evolves (InferenceInput.refineParams proto outcome.slots).2 := by
        rw [InferenceInput.refineParams_eq_tally]
        exact tally_related Evolves.refl Evolves.trans
          (fun (proto : Prototype) (entry : Ty × Nat) =>
            (Change.learn proto (.param entry.2 entry.1)).evolves) outcome.slots.zipIdx (0, proto)
      exact params.trans (Change.learn _ (.result outcome.returnType)).evolves
    · exact .refl proto

end Prototype

namespace InferenceState

variable {before between after : InferenceState} {sub : Nat}

/-- Every prototype evolves. -/
def Evolves (before after : InferenceState) : Prop :=
  ∀ sub, (before.proto sub).Evolves (after.proto sub)

theorem Evolves.refl (state : InferenceState) : state.Evolves state :=
  fun sub => .refl (state.proto sub)

theorem Evolves.trans (first : before.Evolves between) (second : between.Evolves after) :
    before.Evolves after :=
  fun sub => (first sub).trans (second sub)

theorem Evolves.of_protos (same : after.protos = before.protos) : before.Evolves after := by
  intro sub
  rw [InferenceState.proto, InferenceState.proto, same]
  exact .refl _

theorem Evolves.setProto {proto : Prototype} (state : InferenceState)
    (evolves : (state.proto sub).Evolves proto) : state.Evolves (state.setProto sub proto) := by
  intro other
  rw [proto_setProto_eq]
  split
  · rename_i here
    obtain ⟨rfl, -⟩ := here
    exact evolves
  · exact .refl _

theorem evolves_refineCallees (state : InferenceState) (refinements : List Refinement) :
    state.Evolves (state.refineCallees refinements).2 := by
  rw [refineCallees_eq_tally]
  refine tally_related Evolves.refl Evolves.trans (fun state refinement => ?_) refinements (0, state)
  exact .setProto state (Prototype.Change.learn _ (.param refinement.slot refinement.type)).evolves

end InferenceState

/-- A loop without values keeps what each of its steps keeps. -/
theorem Infer.Leads.forM {ι : Type} {items : List ι} {action : ι → Infer Unit}
    {holds : InferenceState → Prop} {before : InferenceState}
    (each : ∀ item ∈ items, ∀ state, holds state → Leads state (action item) fun _ => holds)
    (begins : holds before) : Leads before (items.forM action) fun _ => holds := by
  induction items generalizing before with
  | nil => exact .value begins
  | cons item items induction =>
      exact (each item List.mem_cons_self before begins).bind fun _ _ kept =>
        induction (fun other listed => each other (List.mem_cons_of_mem _ listed)) kept

namespace InferenceInput

open Infer (Leads)
open InferenceState (Evolves)

variable {input : InferenceInput} {before after : InferenceState} {globals : List Ty} {sub : Nat}

theorem explore_evolves (budget : Option Nat) (queued : Nat) :
    Leads before (input.explore globals budget queued sub) fun _ after => before.Evolves after := by
  unfold explore
  refine .reads (.lift fun exploration _ => .writes (.value ?_))
  exact .setProto before (Prototype.Change.decisions _ exploration.queue).evolves

theorem applyEvidence_evolves (outcome : WalkOutcome) :
    Leads before (applyEvidence outcome) fun _ after => before.Evolves after := by
  unfold applyEvidence
  refine .reads (.lift fun recorded found => .writes (.value ?_))
  exact (before.evolves_refineCallees outcome.refinements).trans
    (.of_protos (InferenceState.protos_of_recordHeights found))

theorem settle_evolves (outcome : WalkOutcome) :
    Leads before (settle sub outcome) fun _ after => before.Evolves after := by
  unfold settle
  refine .changes ((applyEvidence_evolves outcome).bind fun _ after evolves => .value ?_)
  exact (Evolves.setProto before (Prototype.Change.install _ _ _ _ _).evolves).trans evolves

/-- An attempt changes prototypes in these ways only. -/
theorem attempt_evolves (budget : Option Nat) (sub : Nat) :
    Leads before (input.attempt globals budget sub) fun _ after => before.Evolves after := by
  unfold attempt
  refine .reads ?_
  split
  · refine .changes (.reads ?_)
    have begun : before.Evolves
        (before.setProto sub { before.proto sub with status := .inProgress }) :=
      .setProto before (Prototype.Change.status _ _).evolves
    refine (explore_evolves budget _).bind fun answer explored evolves => .changes ?_
    have noted : before.Evolves
        { explored with queued := explored.queued.setIfInBounds sub answer.2 } :=
      (begun.trans evolves).trans (.of_protos rfl)
    split
    · exact (settle_evolves _).bind fun _ after settled => .value (noted.trans settled)
    · exact .value noted
    · refine .changes (.value (noted.trans ?_))
      exact (Evolves.setProto _ (Prototype.Change.status _ .failed).evolves).trans
        (.of_protos (input.protos_giveUp sub _))
  · exact .value (.refl before)

/-- A guess changes prototypes in these ways only. -/
theorem guess_evolves (sub : Nat) :
    Leads before (input.guess sub) fun _ after => before.Evolves after := by
  unfold guess
  refine .reads ?_
  dsimp only
  split
  · refine .lift fun guess _ => ?_
    intro value after ran
    cases ran
    have guessed : (before.proto sub).Evolves ((before.proto sub).installGuess guess) :=
      (Prototype.Change.install _ _ _ _ _).evolves.trans (Prototype.Change.fallback _ true).evolves
    exact (Evolves.setProto before guessed).trans (.of_protos (input.protos_report _ _))
  · exact .value (.refl before)

theorem merge_evolves (outcome : WalkOutcome) :
    Leads before (merge sub outcome) fun _ after => before.Evolves after := by
  unfold merge
  refine .reads (.writes ?_)
  have merged : before.Evolves (before.setProto sub (mergeOutcome (before.proto sub) outcome).2) :=
    .setProto before (Prototype.evolves_mergeOutcome _ outcome)
  exact (applyEvidence_evolves outcome).bind fun _ after more => .value (merged.trans more)

/-- A refinement changes prototypes in these ways only. -/
theorem refineOne_evolves (sub : Nat) :
    Leads before (input.refineOne globals sub) fun _ after => before.Evolves after := by
  unfold refineOne
  refine .reads ?_
  split
  · refine (explore_evolves _ 0).bind fun answer between evolves => ?_
    split
    · exact (merge_evolves _).weaken fun _ after more => evolves.trans more
    · exact .value evolves
  · exact .value (.refl before)

/-- One step of inference: an attempt, a guess or a refinement. -/
inductive Step (input : InferenceInput) : InferenceState → InferenceState → Prop where
  /-- Paths through a subroutine are tried. -/
  | attempt {globals : List Ty} {budget : Option Nat} {sub : Nat} {settled : Bool}
      {before after : InferenceState}
      (ran : (input.attempt globals budget sub).run before = .ok (settled, after)) :
      Step input before after
  /-- A prototype is guessed. -/
  | guess {sub : Nat} {before after : InferenceState}
      (ran : (input.guess sub).run before = .ok ((), after)) : Step input before after
  /-- A prototype is refined. -/
  | refine {globals : List Ty} {sub changes : Nat} {before after : InferenceState}
      (ran : (input.refineOne globals sub).run before = .ok (changes, after)) :
      Step input before after

/-- Any number of steps of inference lead from one state to another. -/
def Reaches (input : InferenceInput) : InferenceState → InferenceState → Prop :=
  Relation.ReflTransGen input.Step

theorem Step.evolves (step : input.Step before after) : before.Evolves after := by
  cases step with
  | attempt ran => exact attempt_evolves _ _ _ _ ran
  | guess ran => exact guess_evolves _ _ _ ran
  | refine ran => exact refineOne_evolves _ _ _ ran

/-- Prototypes evolve along the steps of inference. -/
theorem Reaches.evolves (reaches : input.Reaches before after) : before.Evolves after := by
  induction reaches with
  | refl => exact .refl before
  | tail _ step induction => exact induction.trans step.evolves

section Runs

variable {start : InferenceState} (reached : input.Reaches start before)

include reached

theorem pass_reaches (budget : Option Nat) (component : List Nat) (rounds : Nat) :
    Leads before (input.pass globals budget component rounds) fun _ after =>
      input.Reaches start after := by
  induction rounds generalizing before with
  | zero => exact .value reached
  | succ rounds induction =>
      unfold pass
      have round : Leads before (input.attemptAll globals budget component) fun _ after =>
          input.Reaches start after := by
        refine .foldlM (fun sub _ progress state reached => ?_) reached
        have attempted : Leads state (input.attempt globals budget sub) fun _ after =>
            input.Reaches start after := fun settled after ran => reached.tail (.attempt ran)
        exact attempted.bind fun settled after reached => .value reached
      refine round.bind fun progress between reached => ?_
      split
      · exact induction reached
      · exact .value reached

theorem passes_reaches (component : List Nat) (budgets : List (Option Nat)) :
    Leads before (input.passes globals component budgets) fun _ after =>
      input.Reaches start after := by
  induction budgets generalizing before with
  | nil => exact .value reached
  | cons budget budgets induction =>
      unfold passes
      refine .reads ?_
      split
      · exact (pass_reaches reached budget component _).bind fun _ between reached =>
          induction reached
      · exact .value reached

theorem solveComponent_reaches (component : List Nat) :
    Leads before (input.solveComponent globals component) fun _ after =>
      input.Reaches start after := by
  unfold solveComponent
  refine (passes_reaches reached component _).bind fun _ between reached => ?_
  exact .forM (fun sub _ state reached _ after ran => reached.tail (.guess ran)) reached

theorem refine_reaches (rounds : Nat) :
    Leads before (input.refine globals rounds) fun _ after => input.Reaches start after := by
  induction rounds generalizing before with
  | zero => exact .value reached
  | succ rounds induction =>
      unfold refine
      have round : Leads before (input.refineRound globals) fun _ after =>
          input.Reaches start after := by
        refine .foldlM (fun sub _ changes state reached => ?_) reached
        have refined : Leads state (input.refineOne globals sub) fun _ after =>
            input.Reaches start after := fun more after ran => reached.tail (.refine ran)
        exact refined.bind fun more after reached => .value reached
      refine round.bind fun changes between reached => ?_
      split
      · exact induction reached
      · exact .value reached

omit reached in
/-- Inference is a chain of steps, and its prototypes are those of the last state. -/
theorem infer_reaches (layout : Layout) :
    Leads before (input.infer layout) fun inference after =>
      input.Reaches before after ∧ inference.protos = after.protos := by
  have rest : ∀ (types : List Ty) (state : InferenceState), input.Reaches before state →
      Leads state (do
        input.refine types input.limits.refinementRounds
        let state ← get
        return ⟨state.protos, types, state.failures⟩ : Infer Inference) fun inference after =>
          input.Reaches before after ∧ inference.protos = after.protos := by
    intro types state reached
    exact (refine_reaches reached _).bind fun _ after reached => .reads (.value ⟨reached, rfl⟩)
  unfold infer
  refine .reads (.lift fun found _ => ?_)
  have solved : Leads before
      (input.calls.components.forM (input.solveComponent (found.getD []))) fun _ after =>
        input.Reaches before after :=
    .forM (fun component _ state reached => solveComponent_reaches reached component)
      Relation.ReflTransGen.refl
  refine solved.bind fun _ between reached => ?_
  cases found with
  | some types => exact rest types between reached
  | none => exact .reads (.lift fun again _ => rest _ between reached)

end Runs

end InferenceInput
end NwScript
