import NwScript.Analysis
import NwScript.Proofs.InferenceSteps
import NwScript.Proofs.WalkTotal

/-!
# Type inference never fails

Every step of the inference keeps what the flow table says about jumps and liveness and then succeeds.
A property of prototypes that the primitive changes keep holds for all prototypes at the end.
-/

namespace NwScript

/-- A loop succeeds if each step succeeds where an invariant holds, and keeps it. -/
theorem foldlM_eq_ok {α β : Type} {step : β → α → Except Fault β} {holds : β → Prop}
    {items : List α}
    (each : ∀ item ∈ items, ∀ value, holds value → ∃ next, step value item = .ok next ∧ holds next)
    (start : β) (begins : holds start) :
    ∃ last, items.foldlM step start = .ok last ∧ holds last := by
  induction items generalizing start with
  | nil => exact ⟨start, rfl, begins⟩
  | cons item items induction =>
      obtain ⟨next, stepped, still⟩ := each item List.mem_cons_self start begins
      rw [List.foldlM_cons, stepped]
      exact induction (fun other listed => each other (List.mem_cons_of_mem _ listed)) next still

/-- A step of inference succeeds, keeps an invariant and gives a value with some property. -/
def Infer.Ensures {α : Type} (invariant : InferenceState → Prop) (action : Infer α)
    (post : α → Prop) : Prop :=
  ∀ state, invariant state →
    ∃ value changed, action.run state = .ok (value, changed) ∧ invariant changed ∧ post value

namespace Infer

variable {α β : Type} {invariant : InferenceState → Prop}

theorem Ensures.value {post : α → Prop} {value : α} (holds : post value) :
    Ensures invariant (pure value : Infer α) post :=
  fun state sound => ⟨value, state, rfl, sound, holds⟩

theorem Ensures.bind {action : Infer α} {next : α → Infer β} {middle : α → Prop} {post : β → Prop}
    (first : Ensures invariant action middle)
    (second : ∀ value, middle value → Ensures invariant (next value) post) :
    Ensures invariant (action >>= next) post := by
  intro state sound
  obtain ⟨value, changed, ran, kept, holds⟩ := first state sound
  obtain ⟨result, last, went, still, final⟩ := second value holds changed kept
  refine ⟨result, last, ?_, still, final⟩
  rw [StateT.run_bind, ran]
  exact went

theorem Ensures.weaken {action : Infer α} {strong weak : α → Prop}
    (ensures : Ensures invariant action strong) (implies : ∀ value, strong value → weak value) :
    Ensures invariant action weak := by
  intro state sound
  obtain ⟨value, changed, ran, kept, holds⟩ := ensures state sound
  exact ⟨value, changed, ran, kept, implies value holds⟩

theorem Ensures.reads : Ensures invariant (get : Infer InferenceState) invariant :=
  fun state sound => ⟨state, state, rfl, sound, sound⟩

theorem Ensures.writes {state : InferenceState} (sound : invariant state) :
    Ensures invariant (set state : Infer Unit) fun _ => True :=
  fun _ _ => ⟨(), state, rfl, sound, trivial⟩

theorem Ensures.changes {change : InferenceState → InferenceState}
    (keeps : ∀ state, invariant state → invariant (change state)) :
    Ensures invariant (modify change : Infer Unit) fun _ => True :=
  fun state sound => ⟨(), change state, rfl, keeps state sound, trivial⟩

theorem Ensures.lift {outcome : Except Fault α} {post : α → Prop}
    (done : ∃ value, outcome = .ok value ∧ post value) :
    Ensures invariant (liftM outcome : Infer α) post := by
  obtain ⟨value, rfl, holds⟩ := done
  exact fun state sound => ⟨value, state, rfl, sound, holds⟩

theorem Ensures.forM {items : List β} {action : β → Infer Unit}
    (each : ∀ item, Ensures invariant (action item) fun _ => True) :
    Ensures invariant (items.forM action) fun _ => True := by
  induction items with
  | nil => exact .value trivial
  | cons item items induction => exact (each item).bind fun _ _ => induction

theorem Ensures.foldlM {items : List β} {step : α → β → Infer α}
    (each : ∀ value item, Ensures invariant (step value item) fun _ => True) (start : α) :
    Ensures invariant (items.foldlM step start) fun _ => True := by
  induction items generalizing start with
  | nil => exact .value trivial
  | cons item items induction =>
      rw [List.foldlM_cons]
      exact (each start item).bind fun value _ => induction value

end Infer

namespace InferenceInput

/-- What inference keeps: the flow, the number of prototypes, and a property of every prototype. -/
structure Sound (input : InferenceInput) (table : FlowTable) (fits : Prototype → Prop)
    (state : InferenceState) : Prop where
  /-- Only stack heights are written. -/
  flow : table.SameFlow state.table
  /-- There is a prototype for each subroutine. -/
  count : state.protos.size = input.program.subroutineCount
  /-- Every prototype has the property. -/
  fits : ∀ sub, fits (state.proto sub)

/-- What some walk may show about a subroutine. -/
def Shows (input : InferenceInput) (table : FlowTable) (fits : Prototype → Prop)
    (outcome : WalkOutcome) : Prop :=
  ∃ state globals sub, input.Sound table fits state ∧
    (input.context state globals sub).Completes outcome

/-- The primitive changes of prototypes keep a property. -/
structure Keeps (input : InferenceInput) (table : FlowTable) (fits : Prototype → Prop) : Prop where
  /-- The progress does not matter. -/
  status : ∀ proto status, fits proto → fits { proto with status }
  /-- The decisions do not matter. -/
  decisions : ∀ proto decisions, fits proto → fits { proto with decisions }
  /-- What a walk shows may be installed. -/
  install : ∀ proto outcome, fits proto → input.Shows table fits outcome →
    fits (proto.install outcome.slots outcome.groups outcome.returnType outcome.returnDepth)
  /-- What a walk shows may be merged. -/
  merge : ∀ proto outcome, fits proto → input.Shows table fits outcome →
    fits (mergeOutcome proto outcome).2
  /-- A callee may learn from a walk. -/
  refine : ∀ proto outcome refinement, fits proto → input.Shows table fits outcome →
    refinement ∈ outcome.refinements → fits (proto.refineParam refinement.slot refinement.type).2
  /-- A guess may be installed. -/
  guess : ∀ proto state sub guess, fits proto → input.Sound table fits state →
    SlotGuess.ofSub ⟨input.program, state.table, input.calls, input.catalog⟩ state.protos sub =
      .ok guess → fits (proto.installGuess guess)

variable {input : InferenceInput} {table : FlowTable} {fits : Prototype → Prop}

theorem keeps_true (input : InferenceInput) (table : FlowTable) :
    input.Keeps table fun _ => True := by
  constructor <;> intros <;> trivial

theorem proto_setProto (state : InferenceState) (sub other : Nat) (proto : Prototype) :
    (state.setProto sub proto).proto other = proto ∨
      (state.setProto sub proto).proto other = state.proto other := by
  unfold InferenceState.setProto InferenceState.proto
  by_cases inside : sub < state.protos.size
  · by_cases same : sub = other
    · subst same
      left
      simp [inside]
    · right
      simp [Array.getD_eq_getD_getElem?, same]
  · right
    rw [Array.setIfInBounds_eq_of_size_le (Nat.not_lt.mp inside)]

theorem Sound.setProto {state : InferenceState} (sound : input.Sound table fits state) (sub : Nat)
    {proto : Prototype} (holds : fits proto) : input.Sound table fits (state.setProto sub proto) := by
  refine ⟨sound.flow, ?_, fun other => ?_⟩
  · simp [InferenceState.setProto, sound.count]
  · rcases proto_setProto state sub other proto with equal | equal
    · rw [equal]
      exact holds
    · rw [equal]
      exact sound.fits other

/-- What is not flow or prototypes may change freely. -/
theorem Sound.congr {state changed : InferenceState} (sound : input.Sound table fits state)
    (tables : changed.table = state.table) (protos : changed.protos = state.protos) :
    input.Sound table fits changed := by
  refine ⟨tables ▸ sound.flow, protos ▸ sound.count, fun sub => ?_⟩
  have equal : changed.proto sub = state.proto sub := by
    simp only [InferenceState.proto, protos]
  rw [equal]
  exact sound.fits sub

theorem Sound.refineCallees (kept : input.Keeps table fits) {outcome : WalkOutcome}
    (shows : input.Shows table fits outcome) {state : InferenceState}
    (sound : input.Sound table fits state) :
    input.Sound table fits (state.refineCallees outcome.refinements).2 := by
  have folded : ∀ (refinements : List Refinement), refinements ⊆ outcome.refinements →
      ∀ (changes : Nat) (state : InferenceState), input.Sound table fits state →
        input.Sound table fits (refinements.foldl
          (fun found refinement =>
            let learned :=
              (found.2.proto refinement.callee).refineParam refinement.slot refinement.type
            (found.1 + learned.1.toNat, found.2.setProto refinement.callee learned.2))
          (changes, state)).2 := by
    intro refinements
    induction refinements with
    | nil => exact fun _ _ _ sound => sound
    | cons refinement refinements induction =>
        intro listed changes state sound
        rw [List.foldl_cons]
        refine induction (fun _ member => listed (List.mem_cons_of_mem _ member)) _ _ ?_
        exact sound.setProto _ (kept.refine _ outcome refinement (sound.fits _) shows
          (listed List.mem_cons_self))
  exact folded _ (List.Subset.refl _) 0 state sound

theorem recordHeights_eq_ok (known : table.IsKnown input.program) {heights : List (Nat × Int)}
    (inside : ∀ entry ∈ heights, entry.1 < input.program.commandCount) {state : InferenceState}
    (sound : input.Sound table fits state) :
    ∃ changed, state.recordHeights heights = .ok changed ∧ input.Sound table fits changed := by
  have written : ∀ entry ∈ heights, ∀ between, table.SameFlow between →
      ∃ next, FlowTable.setHeight between entry.1 entry.2 = .ok next ∧ table.SameFlow next := by
    intro entry listed between same
    obtain ⟨next, set, changed⟩ :=
      (known.of_sameFlow same).setHeight_eq (inside entry listed) entry.2
    exact ⟨next, set, same.trans changed⟩
  obtain ⟨last, folded, same⟩ := foldlM_eq_ok written state.table sound.flow
  refine ⟨{ state with table := last }, ?_, same, sound.count, sound.fits⟩
  show (do
    let table ← heights.foldlM
      (fun table (entry : Nat × Int) => FlowTable.setHeight table entry.1 entry.2) state.table
    return { state with table } : Except Fault InferenceState) = _
  rw [folded]
  rfl

section Steps

open Infer (Ensures)

variable (known : table.IsKnown input.program) (kept : input.Keeps table fits)

include known

theorem explore_ensures (kept : input.Keeps table fits) (globals : List Ty) (budget : Option Nat)
    (queued sub : Nat) :
    Ensures (input.Sound table fits) (input.explore globals budget queued sub) fun answer =>
      ∀ outcome, answer.1 = .found outcome → input.Shows table fits outcome := by
  unfold explore
  refine Ensures.reads.bind fun state sound => ?_
  have context_known : (input.context state globals sub).table.IsKnown
      (input.context state globals sub).program :=
    known.of_sameFlow sound.flow
  obtain ⟨exploration, explored, completes⟩ := TypingContext.exploreFrom_eq_ok context_known budget
    input.limits.maxDecisions 0 queued none .empty
  refine (Ensures.lift ⟨exploration, explored, rfl⟩).bind fun found same => ?_
  subst same
  refine (Ensures.writes (sound.setProto sub (kept.decisions _ _ (sound.fits sub)))).bind
    fun _ _ => Ensures.value ?_
  intro outcome same
  exact ⟨state, globals, sub, sound, completes outcome same⟩

omit known in
theorem heights_of_shows (known : table.IsKnown input.program) {outcome : WalkOutcome}
    (shows : input.Shows table fits outcome) :
    ∀ entry ∈ outcome.heights, entry.1 < input.program.commandCount := by
  obtain ⟨state, globals, sub, sound, completes⟩ := shows
  exact TypingContext.heightsInside_of_completes (known.of_sameFlow sound.flow) completes

theorem applyEvidence_ensures (kept : input.Keeps table fits) {outcome : WalkOutcome}
    (shows : input.Shows table fits outcome) :
    Ensures (input.Sound table fits) (applyEvidence outcome) fun _ => True := by
  unfold applyEvidence
  refine Ensures.reads.bind fun state sound => ?_
  have refined := sound.refineCallees kept shows
  obtain ⟨changed, recorded, final⟩ :=
    recordHeights_eq_ok known (heights_of_shows known shows) refined
  refine (Ensures.lift ⟨changed, recorded, rfl⟩).bind fun found same => ?_
  subst same
  exact (Ensures.writes final).bind fun _ _ => .value trivial

theorem settle_ensures (kept : input.Keeps table fits) (sub : Nat) {outcome : WalkOutcome}
    (shows : input.Shows table fits outcome) :
    Ensures (input.Sound table fits) (settle sub outcome) fun _ => True := by
  unfold settle
  refine (Ensures.changes fun state sound =>
    sound.setProto sub (kept.install _ outcome (sound.fits sub) shows)).bind fun _ _ => ?_
  exact (applyEvidence_ensures known kept shows).bind fun _ _ => .value trivial

theorem attempt_ensures (kept : input.Keeps table fits) (globals : List Ty) (budget : Option Nat)
    (sub : Nat) :
    Ensures (input.Sound table fits) (input.attempt globals budget sub) fun _ => True := by
  unfold attempt
  refine Ensures.reads.bind fun state _ => ?_
  split
  · refine (Ensures.changes fun state sound =>
      sound.setProto sub (kept.status _ _ (sound.fits sub))).bind fun _ _ => ?_
    refine Ensures.reads.bind fun state _ => ?_
    refine (explore_ensures known kept globals budget _ sub).bind fun answer shows => ?_
    obtain ⟨result, queued⟩ := answer
    refine (Ensures.changes fun state sound => sound.congr rfl rfl).bind fun _ _ => ?_
    cases result with
    | found outcome =>
        exact (settle_ensures known kept sub (shows outcome rfl)).bind fun _ _ => .value trivial
    | blocked callee => exact .value trivial
    | limitExceeded =>
        refine (Ensures.changes fun state sound => ?_).bind fun _ _ => .value trivial
        exact (sound.setProto sub (kept.status _ _ (sound.fits sub))).congr
          (input.table_giveUp sub state) (input.protos_giveUp sub state)
  · exact .value trivial

theorem pass_ensures (kept : input.Keeps table fits) (globals : List Ty) (budget : Option Nat)
    (component : List Nat) (rounds : Nat) :
    Ensures (input.Sound table fits) (input.pass globals budget component rounds)
      fun _ => True := by
  induction rounds with
  | zero => exact .value trivial
  | succ rounds induction =>
      unfold pass attemptAll
      refine (Ensures.foldlM (fun progress sub => ?_) false).bind fun progress _ => ?_
      · exact (attempt_ensures known kept globals budget sub).bind fun _ _ => .value trivial
      split
      · exact induction
      · exact .value trivial

theorem passes_ensures (kept : input.Keeps table fits) (globals : List Ty) (component : List Nat)
    (budgets : List (Option Nat)) :
    Ensures (input.Sound table fits) (input.passes globals component budgets) fun _ => True := by
  induction budgets with
  | nil => exact .value trivial
  | cons budget budgets induction =>
      unfold passes
      refine Ensures.reads.bind fun state _ => ?_
      split
      · exact (pass_ensures known kept globals budget component _).bind fun _ _ => induction
      · exact .value trivial

omit known in
/-- The slots that a subroutine pops before it returns can be told. -/
theorem poppedBefore_eq_ok {program : Program} {table : FlowTable} (known : table.IsKnown program)
    {command : Nat} (inside : command < program.commandCount) :
    ∃ slots, SlotGuess.poppedBefore program table command = .ok slots := by
  obtain ⟨dead, marked⟩ := known.isDead_eq inside
  unfold SlotGuess.poppedBefore
  split
  · exact ⟨_, rfl⟩
  · rw [marked]
    cases dead with
    | true => exact ⟨_, rfl⟩
    | false =>
        simp only [bind, Except.bind, Bool.false_eq_true, if_false]
        split
        · split <;> exact ⟨_, rfl⟩
        · exact ⟨_, rfl⟩

omit known in
/-- The parameters of a subroutine can be guessed. -/
theorem ofSub_eq_ok {evidence : CallSites.Evidence}
    (known : evidence.table.IsKnown evidence.program) (protos : Array Prototype) (sub : Nat) :
    ∃ guess, SlotGuess.ofSub evidence protos sub = .ok guess := by
  have walked : ∀ caller ∈ evidence.calls.callers sub, ∀ estimates, True → ∃ next,
      CallSites.walk evidence protos estimates caller = .ok next ∧ True := by
    intro caller _ estimates _
    have stepped : ∀ command ∈ evidence.program.body caller, ∀ state, True →
        ∃ next, CallSites.step evidence protos state command = .ok next ∧ True := by
      intro command listed state _
      obtain ⟨dead, marked⟩ := known.isDead_eq (Program.lt_of_mem_body listed)
      unfold CallSites.step
      rw [marked]
      cases dead with
      | true => exact ⟨_, rfl, trivial⟩
      | false =>
          simp only [bind, Except.bind, Bool.false_eq_true, if_false]
          split
          · split <;> exact ⟨_, rfl, trivial⟩
          · exact ⟨_, rfl, trivial⟩
    obtain ⟨last, folded, _⟩ := foldlM_eq_ok stepped ({}, estimates) trivial
    exact ⟨_, by rw [CallSites.walk, folded]; rfl, trivial⟩
  obtain ⟨estimates, estimated, _⟩ := foldlM_eq_ok walked [] trivial
  have popped : ∀ command ∈ evidence.program.body sub, ∀ most, True → ∃ next,
      (do return max most (← SlotGuess.poppedBefore evidence.program evidence.table command) :
        Except Fault Nat) = .ok next ∧ True := by
    intro command listed most _
    obtain ⟨slots, found⟩ := poppedBefore_eq_ok known (Program.lt_of_mem_body listed)
    exact ⟨_, by rw [found]; rfl, trivial⟩
  obtain ⟨epilogue, folded, _⟩ := foldlM_eq_ok popped 0 trivial
  unfold SlotGuess.ofSub CallSites.estimateFor
  rw [estimated]
  simp only [bind, Except.bind, pure, Except.pure] at folded ⊢
  rw [folded]
  exact ⟨_, rfl⟩

theorem guess_ensures (kept : input.Keeps table fits) (sub : Nat) :
    Ensures (input.Sound table fits) (input.guess sub) fun _ => True := by
  unfold guess
  refine Ensures.reads.bind fun state sound => ?_
  dsimp only
  split
  · let evidence : CallSites.Evidence :=
      ⟨input.program, state.table, input.calls, input.catalog⟩
    have evident : evidence.table.IsKnown evidence.program := known.of_sameFlow sound.flow
    obtain ⟨found, guessed⟩ := ofSub_eq_ok evident state.protos sub
    refine (Ensures.lift ⟨found, guessed, rfl⟩).bind fun guess same => ?_
    subst same
    refine Ensures.writes (Sound.congr (sound.setProto sub ?_) (input.table_report _ _)
      (input.protos_report _ _))
    exact kept.guess _ state sub _ (sound.fits sub) sound guessed
  · exact .value trivial

theorem solveComponent_ensures (kept : input.Keeps table fits) (globals : List Ty)
    (component : List Nat) :
    Ensures (input.Sound table fits) (input.solveComponent globals component) fun _ => True := by
  unfold solveComponent
  exact (passes_ensures known kept globals component _).bind fun _ _ =>
    .forM fun sub => guess_ensures known kept sub

theorem refineAnyway_ensures (kept : input.Keeps table fits) (globals : List Ty) (sub : Nat) :
    Ensures (input.Sound table fits) (input.refineAnyway globals sub) fun _ => True := by
  unfold refineAnyway
  refine (explore_ensures known kept globals _ 0 sub).bind fun answer shows => ?_
  obtain ⟨result, queued⟩ := answer
  cases result with
  | found outcome =>
      unfold merge
      refine Ensures.reads.bind fun state sound => ?_
      refine (Ensures.writes (sound.setProto sub
        (kept.merge _ outcome (sound.fits sub) (shows outcome rfl)))).bind fun _ _ => ?_
      exact (applyEvidence_ensures known kept (shows outcome rfl)).bind fun _ _ => .value trivial
  | blocked callee => exact .value trivial
  | limitExceeded => exact .value trivial

theorem refineOne_ensures (kept : input.Keeps table fits) (globals : List Ty) (sub : Nat) :
    Ensures (input.Sound table fits) (input.refineOne globals sub) fun _ => True := by
  rw [refineOne_eq_ite]
  refine Ensures.reads.bind fun state _ => ?_
  split
  · exact refineAnyway_ensures known kept globals sub
  · exact .value trivial

theorem refineRound_ensures (kept : input.Keeps table fits) (globals : List Ty) :
    Ensures (input.Sound table fits) (input.refineRound globals) fun _ => True := by
  unfold refineRound
  refine .foldlM (fun changes sub => ?_) 0
  exact (refineOne_ensures known kept globals sub).bind fun _ _ => .value trivial

theorem refine_ensures (kept : input.Keeps table fits) (globals : List Ty) (rounds : Nat) :
    Ensures (input.Sound table fits) (input.refine globals rounds) fun _ => True := by
  induction rounds with
  | zero => exact .value trivial
  | succ rounds induction =>
      unfold refine
      refine (refineRound_ensures known kept globals).bind fun changes _ => ?_
      split
      · exact induction
      · exact .value trivial

omit known in
theorem findGlobals_eq_ok {state : InferenceState} (known : state.table.IsKnown input.program)
    (layout : Layout) : ∃ globals, input.findGlobals layout state = .ok globals := by
  unfold findGlobals
  split
  · exact ⟨_, rfl⟩
  · rename_i sub _
    have context_known : (input.context state [] sub).table.IsKnown
        (input.context state [] sub).program := known
    obtain ⟨types, found⟩ :=
      TypingContext.globalTypes_eq_ok context_known input.limits.maxDecisions
    rw [found]
    cases types <;> exact ⟨_, rfl⟩

/-- Inference succeeds, and its prototypes are those of the last state. -/
theorem infer_eq_ok (kept : input.Keeps table fits) (layout : Layout) {state : InferenceState}
    (sound : input.Sound table fits state) :
    ∃ inference last, (input.infer layout).run state = .ok (inference, last) ∧
      input.Sound table fits last ∧ inference.protos.size = input.program.subroutineCount ∧
      ∀ sub, fits (inference.protos.getD sub {}) := by
  have ensures : Ensures (input.Sound table fits) (input.infer layout) fun inference =>
      inference.protos.size = input.program.subroutineCount ∧
        ∀ sub, fits (inference.protos.getD sub {}) := by
    unfold infer
    refine Ensures.reads.bind fun before holds => ?_
    obtain ⟨globals, found⟩ := findGlobals_eq_ok (known.of_sameFlow holds.flow) layout
    refine (Ensures.lift ⟨globals, found, rfl⟩).bind fun types same => ?_
    subst same
    refine (Ensures.forM fun component => solveComponent_ensures known kept _ component).bind
      fun _ _ => ?_
    have rest : ∀ types, Ensures (input.Sound table fits)
        (do input.refine types input.limits.refinementRounds
            let state ← get
            return ⟨state.protos, types, state.failures⟩ : Infer Inference) fun inference =>
          inference.protos.size = input.program.subroutineCount ∧
            ∀ sub, fits (inference.protos.getD sub {}) := by
      intro types
      refine (refine_ensures known kept types _).bind fun _ _ => ?_
      exact Ensures.reads.bind fun state holds => .value ⟨holds.count, holds.fits⟩
    cases globals with
    | some types => exact rest types
    | none =>
        refine Ensures.reads.bind fun state holds => ?_
        obtain ⟨globals, again⟩ := findGlobals_eq_ok (known.of_sameFlow holds.flow) layout
        exact (Ensures.lift ⟨globals, again, rfl⟩).bind fun types _ => rest (types.getD [])
  obtain ⟨inference, last, ran, final, holds⟩ := ensures state sound
  exact ⟨inference, last, ran, final, holds⟩

end Steps

end InferenceInput
end NwScript
