import NwScript.Proofs.AnalysisOutcome
import NwScript.Proofs.ParameterRanges

/-!
# What refinement adds

In a round of refinement each subroutine is walked with the prototypes as earlier walks of the round left
them.  Whatever the order, a prototype keeps its slots and learns the types of undetermined ones, unless it
was a guess that a walk replaces.
-/

namespace NwScript

/-! ### Loops that count changes -/

section Tally

variable {σ ι : Type} {step : σ → ι → Bool × σ}

/-- Take steps one after another and count those that say that they changed something. -/
def tally (step : σ → ι → Bool × σ) (items : List ι) (start : Nat × σ) : Nat × σ :=
  items.foldl (fun found item => (found.1 + (step found.2 item).1.toNat, (step found.2 item).2)) start

theorem tally_cons (item : ι) (items : List ι) (start : Nat × σ) :
    tally step (item :: items) start =
      tally step items (start.1 + (step start.2 item).1.toNat, (step start.2 item).2) := rfl

/-- What every step does, all of them do together. -/
theorem tally_related {Related : σ → σ → Prop} (refl : ∀ state, Related state state)
    (trans : ∀ {first second third}, Related first second → Related second third →
      Related first third)
    (each : ∀ state item, Related state (step state item).2) (items : List ι) (start : Nat × σ) :
    Related start.2 (tally step items start).2 := by
  induction items generalizing start with
  | nil => exact refl start.2
  | cons item items induction => exact trans (each start.2 item) (induction (_, _))

/-- Steps that agree count alike. -/
theorem tally_alike {Alike : σ → σ → Prop}
    (each : ∀ {state like}, Alike state like → ∀ item,
      (step like item).1 = (step state item).1 ∧ Alike (step state item).2 (step like item).2)
    (items : List ι) {state like : σ} (alike : Alike state like) (changes : Nat) :
    (tally step items (changes, like)).1 = (tally step items (changes, state)).1 ∧
      Alike (tally step items (changes, state)).2 (tally step items (changes, like)).2 := by
  induction items generalizing state like changes with
  | nil => exact ⟨rfl, alike⟩
  | cons item items induction =>
      obtain ⟨same, next⟩ := each alike item
      rw [tally_cons, tally_cons, same]
      exact induction next _

/-- The count does not fall, and where it stays nothing changes. -/
theorem tally_unchanged (idle : ∀ {state item}, (step state item).1 = false →
      (step state item).2 = state) (items : List ι) (start : Nat × σ) :
    start.1 ≤ (tally step items start).1 ∧
      ((tally step items start).1 = start.1 → (tally step items start).2 = start.2) := by
  induction items generalizing start with
  | nil => exact ⟨Nat.le_refl _, fun _ => rfl⟩
  | cons item items induction =>
      obtain ⟨least, stays⟩ :=
        induction (start.1 + (step start.2 item).1.toNat, (step start.2 item).2)
      rw [tally_cons]
      refine ⟨(Nat.le_add_right _ _).trans least, fun same => ?_⟩
      cases changed : (step start.2 item).1 with
      | true =>
          rw [changed] at same least
          rw [same] at least
          exact absurd least (Nat.not_succ_le_self start.1)
      | false =>
          rw [changed] at same stays
          exact (stays same).trans (idle changed)

/-- Steps that change nothing are not counted. -/
theorem tally_idle {state : σ} {items : List ι} (idle : ∀ item, step state item = (false, state))
    (changes : Nat) : tally step items (changes, state) = (changes, state) := by
  induction items with
  | nil => rfl
  | cons item items induction =>
      rw [tally_cons, idle]
      exact induction

end Tally

namespace InferenceInput

theorem refineParams_eq_tally (proto : Prototype) (types : List Ty) :
    refineParams proto types =
      tally (fun proto entry => proto.refineParam entry.2 entry.1) types.zipIdx (0, proto) := rfl

end InferenceInput

namespace InferenceState

/-- Apply what a walk showed about one parameter of a callee. -/
def refineCallee (state : InferenceState) (refinement : Refinement) : Bool × InferenceState :=
  let learned := (state.proto refinement.callee).refineParam refinement.slot refinement.type
  (learned.1, state.setProto refinement.callee learned.2)

theorem refineCallees_eq_tally (state : InferenceState) (refinements : List Refinement) :
    state.refineCallees refinements = tally refineCallee refinements (0, state) := rfl

end InferenceState

/-! ### What a round adds -/

namespace Prototype

section Growth

variable {before between after : Prototype}

/-- A prototype knows what it knew before. -/
structure Grows (before after : Prototype) : Prop where
  /-- Only undetermined slots are typed. -/
  slots : List.Forall₂ IsRefined before.slots after.slots
  /-- The groups stay. -/
  groups : after.groups = before.groups
  /-- A result that is fully typed stays. -/
  result : before.returnType.isFullyTyped = true → after.returnType = before.returnType
  /-- It is as much of a guess as before. -/
  guessed : after.flags.fallback = before.flags.fallback

theorem Grows.refl (proto : Prototype) : proto.Grows proto :=
  ⟨List.forall₂_same.mpr fun _ _ => .inl rfl, rfl, fun _ => rfl, rfl⟩

theorem Grows.trans (first : before.Grows between) (second : between.Grows after) :
    before.Grows after where
  slots := forall₂_isRefined_trans first.slots second.slots
  groups := second.groups.trans first.groups
  result := by
    intro typed
    have same := first.result typed
    exact (second.result (same ▸ typed)).trans same
  guessed := second.guessed.trans first.guessed

theorem Grows.slotCount (grows : before.Grows after) : after.slotCount = before.slotCount :=
  grows.slots.length_eq.symm

/-- The type of a slot that is determined stays. -/
theorem Grows.slot (grows : before.Grows after) {slot : Nat} {type : Ty}
    (found : before.slots[slot]? = some type) (known : type.isKnown = true) :
    after.slots[slot]? = some type := by
  obtain ⟨inside, rfl⟩ := List.getElem?_eq_some_iff.mp found
  obtain ⟨counts, each⟩ := List.forall₂_iff_get.mp grows.slots
  have there : slot < after.slots.length := counts ▸ inside
  rw [List.getElem?_eq_getElem there]
  rcases each slot inside there with same | ⟨unknown, _⟩
  · exact congrArg some same
  · rw [List.get_eq_getElem] at unknown
    rw [unknown] at known
    cases known

theorem grows_refineParam (proto : Prototype) (slot : Nat) (type : Ty) :
    proto.Grows (proto.refineParam slot type).2 := by
  obtain ⟨groups, slots⟩ := proto.learn_spec (.param slot type)
  refine ⟨slots, groups, fun _ => ?_, ?_⟩
  · rw [refineParam]
    split
    · split <;> rfl
    · rfl
  · rw [refineParam]
    split
    · split <;> rfl
    · rfl

theorem grows_refineReturn (proto : Prototype) (type : Ty) :
    proto.Grows (proto.refineReturn type).2 := by
  obtain ⟨groups, slots⟩ := proto.learn_spec (.result type)
  refine ⟨slots, groups, fun typed => ?_, ?_⟩
  · rw [refineReturn, if_neg (by simp [typed])]
  · rw [refineReturn]
    split <;> rfl

theorem grows_refineParams (proto : Prototype) (types : List Ty) :
    proto.Grows (InferenceInput.refineParams proto types).2 := by
  rw [InferenceInput.refineParams_eq_tally]
  exact tally_related Grows.refl Grows.trans
    (fun proto entry => proto.grows_refineParam entry.2 entry.1) types.zipIdx (0, proto)

/-- A prototype grows, or it was a guess and what a walk shows replaces it. -/
def Improves (before after : Prototype) : Prop :=
  before.Grows after ∨ before.flags.fallback = true ∧ after.flags.fallback = false

theorem Improves.refl (proto : Prototype) : proto.Improves proto :=
  .inl (.refl proto)

theorem Improves.trans (first : before.Improves between) (second : between.Improves after) :
    before.Improves after := by
  rcases first with grown | ⟨guess, sure⟩
  · rcases second with more | ⟨guess, sure⟩
    · exact .inl (grown.trans more)
    · exact .inr ⟨grown.guessed.symm.trans guess, sure⟩
  · rcases second with more | ⟨still, _⟩
    · exact .inr ⟨guess, more.guessed.trans sure⟩
    · cases sure.symm.trans still

/-- A prototype that is not replaced grows. -/
theorem Improves.grows (improves : before.Improves after)
    (kept : before.flags.fallback = false ∨ after.flags.fallback = true) : before.Grows after := by
  rcases improves with grown | ⟨guess, sure⟩
  · exact grown
  · rcases kept with known | still
    · cases known.symm.trans guess
    · cases sure.symm.trans still

theorem improves_mergeOutcome (proto : Prototype) (outcome : WalkOutcome) :
    proto.Improves (InferenceInput.mergeOutcome proto outcome).2 := by
  unfold InferenceInput.mergeOutcome
  split
  · exact .inr ⟨‹_›, rfl⟩
  · split
    · exact .inl ((proto.grows_refineParams outcome.slots).trans (grows_refineReturn _ _))
    · exact .refl proto

end Growth

end Prototype

namespace InferenceState

variable {before between after : InferenceState} {sub : Nat}

/-- Every prototype improves. -/
def Improves (before after : InferenceState) : Prop :=
  ∀ sub, (before.proto sub).Improves (after.proto sub)

theorem Improves.refl (state : InferenceState) : state.Improves state :=
  fun sub => .refl (state.proto sub)

theorem Improves.trans (first : before.Improves between) (second : between.Improves after) :
    before.Improves after :=
  fun sub => (first sub).trans (second sub)

theorem Improves.of_protos (same : after.protos = before.protos) : before.Improves after := by
  intro sub
  rw [InferenceState.proto, InferenceState.proto, same]
  exact .refl _

theorem Improves.setProto {proto : Prototype} (state : InferenceState)
    (improves : (state.proto sub).Improves proto) : state.Improves (state.setProto sub proto) := by
  intro other
  rw [proto_setProto_eq]
  split
  · rename_i here
    obtain ⟨rfl, _⟩ := here
    exact improves
  · exact .refl _

theorem improves_refineCallees (state : InferenceState) (refinements : List Refinement) :
    state.Improves (state.refineCallees refinements).2 := by
  rw [refineCallees_eq_tally]
  exact tally_related Improves.refl Improves.trans
    (fun state _ => Improves.setProto state (.inl (Prototype.grows_refineParam _ _ _)))
    refinements (0, state)

theorem protos_of_recordHeights {heights : List (Nat × Int)}
    (recorded : before.recordHeights heights = .ok after) : after.protos = before.protos := by
  unfold recordHeights at recorded
  simp only [bind, Except.bind] at recorded
  split at recorded
  · cases recorded
  · cases recorded
    rfl

end InferenceState

/-- The same settings with another number of rounds of refinement. -/
def Settings.withRounds (settings : Settings) (rounds : Nat) : Settings :=
  { settings with limits := { settings.limits with refinementRounds := rounds } }

namespace InferenceInput

open Infer (Leads)

variable {input : InferenceInput} {before : InferenceState} {globals : List Ty} {sub : Nat}

theorem explore_improves (budget : Option Nat) (queued : Nat) :
    Leads before (input.explore globals budget queued sub) fun _ after => before.Improves after := by
  unfold explore
  refine .reads (.lift fun exploration _ => .writes (.value (.setProto before (.inl ?_))))
  exact ⟨List.forall₂_same.mpr fun _ _ => .inl rfl, rfl, fun _ => rfl, rfl⟩

theorem applyEvidence_improves (outcome : WalkOutcome) :
    Leads before (applyEvidence outcome) fun _ after => before.Improves after := by
  unfold applyEvidence
  refine .reads (.lift fun recorded found => .writes (.value ?_))
  exact (before.improves_refineCallees outcome.refinements).trans
    (.of_protos (InferenceState.protos_of_recordHeights found))

theorem merge_improves (outcome : WalkOutcome) :
    Leads before (merge sub outcome) fun _ after => before.Improves after := by
  unfold merge
  refine .reads (.writes ?_)
  have merged : before.Improves (before.setProto sub (mergeOutcome (before.proto sub) outcome).2) :=
    .setProto before (Prototype.improves_mergeOutcome _ outcome)
  exact (applyEvidence_improves outcome).bind fun _ after more => .value (merged.trans more)

/-- Walking a subroutine again improves prototypes. -/
theorem refineOne_improves (sub : Nat) :
    Leads before (input.refineOne globals sub) fun _ after => before.Improves after := by
  unfold refineOne
  refine .reads ?_
  split
  · refine (explore_improves _ 0).bind fun answer between improves => ?_
    split
    · exact (merge_improves _).weaken fun _ after more => improves.trans more
    · exact .value improves
  · exact .value (.refl before)

/-- A round improves prototypes. -/
theorem refineRound_improves :
    Leads before (input.refineRound globals) fun _ after => before.Improves after :=
  .foldlM (fun sub _ _ _ improves =>
    (refineOne_improves sub).bind fun _ _ more => .value (improves.trans more)) (.refl before)

/-- Another round that may be made improves prototypes. -/
theorem refine_succ_improves {rounds : Nat} {former later : InferenceState}
    (fewer : (input.refine globals rounds).run before = .ok ((), former))
    (more : (input.refine globals (rounds + 1)).run before = .ok ((), later)) :
    former.Improves later := by
  induction rounds generalizing before with
  | zero =>
      cases fewer
      have once : Leads former (input.refine globals 1) fun _ after => former.Improves after := by
        unfold refine
        refine refineRound_improves.bind fun changes between improves => ?_
        split
        · exact .value improves
        · exact .value improves
      exact once () later more
  | succ rounds induction =>
      unfold refine at fewer more
      rw [StateT.run_bind] at fewer more
      cases ran : (input.refineRound globals).run before with
      | error fault =>
          rw [ran] at fewer
          cases fewer
      | ok pair =>
          obtain ⟨changes, between⟩ := pair
          rw [ran] at fewer more
          by_cases unchanged : changes = 0
          · subst unchanged
            cases fewer
            cases more
            exact .refl _
          · simp only [bind, Except.bind, ne_eq, unchanged, not_false_eq_true, if_true]
              at fewer more
            exact induction fewer more

/-- The same input with another number of rounds of refinement. -/
def withRounds (input : InferenceInput) (rounds : Nat) : InferenceInput :=
  { input with settings := input.settings.withRounds rounds }

theorem pass_withRounds (limit : Nat) (budget : Option Nat) (component : List Nat) (rounds : Nat) :
    (input.withRounds limit).pass globals budget component rounds =
      input.pass globals budget component rounds := by
  induction rounds with
  | zero => rfl
  | succ rounds induction =>
      rw [pass, pass, induction]
      rfl

theorem passes_withRounds (limit : Nat) (component : List Nat) (budgets : List (Option Nat)) :
    (input.withRounds limit).passes globals component budgets =
      input.passes globals component budgets := by
  induction budgets with
  | nil => rfl
  | cons budget budgets induction => rw [passes, passes, induction, pass_withRounds]

theorem refine_withRounds (limit rounds : Nat) :
    (input.withRounds limit).refine globals rounds = input.refine globals rounds := by
  induction rounds with
  | zero => rfl
  | succ rounds induction =>
      rw [refine, refine, induction]
      rfl

/-- Inference up to refinement: all components are solved and the globals are known. -/
def solve (input : InferenceInput) (layout : Layout) : Infer (List Ty) := do
  let before ← input.findGlobals layout (← get)
  input.calls.components.forM (input.solveComponent (before.getD []))
  match before with
  | some globals => return globals
  | none => return (← input.findGlobals layout (← get)).getD []

theorem infer_eq_solve_refine (input : InferenceInput) (layout : Layout) :
    input.infer layout = (do
      let globals ← input.solve layout
      input.refine globals input.limits.refinementRounds
      let state ← get
      return ⟨state.protos, globals, state.failures⟩) := by
  unfold infer solve
  simp only [bind_assoc]
  refine bind_congr fun state => bind_congr fun before => bind_congr fun _ => ?_
  cases before with
  | none => simp only [bind_assoc, pure_bind]
  | some globals => simp only [pure_bind]

theorem solve_withRounds (layout : Layout) (limit : Nat) :
    (input.withRounds limit).solve layout = input.solve layout := by
  have solved : ∀ globals : List Ty,
      (input.withRounds limit).solveComponent globals = input.solveComponent globals := by
    intro globals
    funext component
    rw [solveComponent, solveComponent, passes_withRounds]
    rfl
  unfold solve
  simp only [solved]
  rfl

/-- Refinement follows what is solved, and its end is the result. -/
theorem exists_of_infer {layout : Layout} {inference : Inference} {after : InferenceState}
    (ran : (input.infer layout).run before = .ok (inference, after)) :
    ∃ globals solved, (input.solve layout).run before = .ok (globals, solved) ∧
      (input.refine globals input.limits.refinementRounds).run solved = .ok ((), after) ∧
      inference.protos = after.protos := by
  rw [infer_eq_solve_refine, StateT.run_bind] at ran
  cases gone : (input.solve layout).run before with
  | error fault =>
      rw [gone] at ran
      cases ran
  | ok pair =>
      obtain ⟨globals, solved⟩ := pair
      rw [gone] at ran
      change (input.refine globals input.limits.refinementRounds >>= fun _ => do
        let state ← get
        return ⟨state.protos, globals, state.failures⟩ : Infer Inference).run solved = _ at ran
      rw [StateT.run_bind] at ran
      cases refined : (input.refine globals input.limits.refinementRounds).run solved with
      | error fault =>
          rw [refined] at ran
          cases ran
      | ok pair =>
          rw [refined] at ran
          cases ran
          exact ⟨globals, solved, rfl, refined, rfl⟩

/-- Inference that may make another round improves what it finds. -/
theorem infer_succ_improves {layout : Layout} {rounds : Nat} {former later : Inference}
    {first last : InferenceState}
    (fewer : ((input.withRounds rounds).infer layout).run before = .ok (former, first))
    (more : ((input.withRounds (rounds + 1)).infer layout).run before = .ok (later, last))
    (sub : Nat) : (former.protos.getD sub {}).Improves (later.protos.getD sub {}) := by
  obtain ⟨globals, solved, ran, refined, protos⟩ := exists_of_infer fewer
  obtain ⟨_, _, again, more_refined, more_protos⟩ := exists_of_infer more
  rw [solve_withRounds] at ran again
  cases ran.symm.trans again
  rw [refine_withRounds] at refined more_refined
  rw [protos, more_protos]
  exact refine_succ_improves refined more_refined sub

end InferenceInput

namespace Analysis

variable {program : Program} {catalog : ActionCatalog} {settings : Settings} {rounds : Nat}

theorem inferenceInput_withRounds {calls : CallGraph} :
    inferenceInput program calls catalog (settings.withRounds rounds) =
      (inferenceInput program calls catalog settings).withRounds rounds := rfl

theorem ofProgram_succ_improves {former later : Analysis}
    (fewer : ofProgram program catalog (settings.withRounds rounds) = .ok former)
    (more : ofProgram program catalog (settings.withRounds (rounds + 1)) = .ok later) (sub : Nat) :
    (former.inference.protos.getD sub {}).Improves (later.inference.protos.getD sub {}) := by
  obtain ⟨table, first, flow, built, detected, ran⟩ := exists_of_ofProgram fewer
  obtain ⟨other, last, same_flow, again, same_layout, more_ran⟩ := exists_of_ofProgram more
  obtain rfl := Except.ok.inj (flow.symm.trans same_flow)
  rw [← Except.ok.inj (built.symm.trans again)] at same_layout more_ran
  rw [← Except.ok.inj (detected.symm.trans same_layout)] at more_ran
  rw [inferenceInput_withRounds] at ran more_ran
  exact InferenceInput.infer_succ_improves ran more_ran sub

end Analysis
end NwScript
