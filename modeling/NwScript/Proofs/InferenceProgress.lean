import NwScript.Typing.Inference

/-!
# Progress of type inference

A prototype that is known stays known, and a search that was settled or given up is not taken up
again.  So every round of a pass but the last leaves fewer members of a component open, and a
subroutine is given up at most once.
-/

namespace NwScript

namespace ProtoStatus

/-- The search for a prototype may still go on. -/
def IsOpen (status : ProtoStatus) : Prop :=
  status = .notStarted ∨ status = .inProgress

/-- What is known stays known, and what was closed stays closed. -/
structure Advances (before after : ProtoStatus) : Prop where
  /-- A prototype is not forgotten. -/
  done : before = .done → after = .done
  /-- A search is not taken up again. -/
  closed : after.IsOpen → before.IsOpen

theorem Advances.refl (status : ProtoStatus) : status.Advances status :=
  ⟨id, id⟩

theorem Advances.trans {before between after : ProtoStatus} (first : before.Advances between)
    (second : between.Advances after) : before.Advances after :=
  ⟨second.done ∘ first.done, first.closed ∘ second.closed⟩

/-- Everything may become known. -/
theorem Advances.settle (status : ProtoStatus) : status.Advances .done :=
  ⟨fun _ => rfl, fun opened => absurd opened (by simp [IsOpen])⟩

/-- An open search may end or go on in any way. -/
theorem Advances.ofOpen {before : ProtoStatus} (opened : before.IsOpen) (after : ProtoStatus) :
    before.Advances after := by
  refine ⟨fun known => ?_, fun _ => opened⟩
  rw [known] at opened
  exact absurd opened (by simp [IsOpen])

end ProtoStatus

namespace InferenceState

theorem isOpen_iff (state : InferenceState) (sub : Nat) :
    state.isOpen sub = true ↔ (state.proto sub).status.IsOpen := by
  simp [isOpen, ProtoStatus.IsOpen]

/-- Only a subroutine that exists has a prototype to replace. -/
theorem proto_setProto_eq (state : InferenceState) (sub other : Nat) (proto : Prototype) :
    (state.setProto sub proto).proto other =
      if other = sub ∧ sub < state.protos.size then proto else state.proto other := by
  unfold setProto InferenceState.proto
  by_cases same : other = sub
  · subst same
    by_cases inside : other < state.protos.size
    · simp [inside]
    · simp [inside, Array.setIfInBounds_eq_of_size_le (Nat.not_lt.mp inside)]
  · simp [Array.getD_eq_getD_getElem?, Ne.symm same, same]

/-- One state of inference may lead to another. -/
structure Advances (before after : InferenceState) : Prop where
  /-- Prototypes are neither added nor removed. -/
  count : after.protos.size = before.protos.size
  /-- Each prototype advances. -/
  status : ∀ sub, (before.proto sub).status.Advances (after.proto sub).status

/-- One state of inference may lead to another without a search that is given up. -/
structure Follows (before after : InferenceState) : Prop extends Advances before after where
  /-- No search is given up. -/
  failures : after.failures = before.failures

variable {before between after : InferenceState} {sub : Nat}

theorem Advances.refl (state : InferenceState) : state.Advances state :=
  ⟨rfl, fun _ => .refl _⟩

theorem Advances.trans (first : before.Advances between) (second : between.Advances after) :
    before.Advances after :=
  ⟨second.count.trans first.count, fun sub => (first.status sub).trans (second.status sub)⟩

theorem Follows.refl (state : InferenceState) : state.Follows state :=
  ⟨.refl state, rfl⟩

theorem Follows.trans (first : before.Follows between) (second : between.Follows after) :
    before.Follows after :=
  ⟨first.toAdvances.trans second.toAdvances, second.failures.trans first.failures⟩

/-- What is neither prototypes nor failures may change freely. -/
theorem Follows.ofEq (protos : after.protos = before.protos)
    (failures : after.failures = before.failures) : before.Follows after := by
  have same : ∀ sub, after.proto sub = before.proto sub := by
    intro sub
    simp only [InferenceState.proto, protos]
  exact ⟨⟨by rw [protos], fun sub => by rw [same]; exact .refl _⟩, failures⟩

theorem Advances.setProto {proto : Prototype} (state : InferenceState)
    (advances : (state.proto sub).status.Advances proto.status) :
    state.Advances (state.setProto sub proto) := by
  refine ⟨by simp [InferenceState.setProto], fun other => ?_⟩
  rw [proto_setProto_eq]
  split
  · rename_i here
    rw [here.1]
    exact advances
  · exact .refl _

theorem Follows.setProto {proto : Prototype} (state : InferenceState)
    (advances : (state.proto sub).status.Advances proto.status) :
    state.Follows (state.setProto sub proto) :=
  ⟨.setProto state advances, rfl⟩

/-- A subroutine that is closed stays closed. -/
theorem Advances.isOpen (advances : before.Advances after) (opened : after.isOpen sub = true) :
    before.isOpen sub = true := by
  rw [isOpen_iff] at opened ⊢
  exact (advances.status sub).closed opened

theorem Advances.isOpen_eq_false (advances : before.Advances after)
    (closed : before.isOpen sub = false) : after.isOpen sub = false := by
  rw [← Bool.not_eq_true] at closed ⊢
  exact fun opened => closed (advances.isOpen opened)

/-- Number of open members of a component. -/
def openCount (state : InferenceState) (component : List Nat) : Nat :=
  component.countP state.isOpen

theorem openCount_le_length (state : InferenceState) (component : List Nat) :
    state.openCount component ≤ component.length :=
  List.countP_le_length

theorem Advances.openCount_le (advances : before.Advances after) (component : List Nat) :
    after.openCount component ≤ before.openCount component :=
  List.countP_mono_left fun _ _ opened => advances.isOpen opened

/-- Closing a member leaves fewer open. -/
theorem Advances.openCount_lt (advances : before.Advances after) {component : List Nat}
    (listed : sub ∈ component) (opened : before.isOpen sub = true)
    (closed : after.isOpen sub = false) :
    after.openCount component < before.openCount component := by
  induction component with
  | nil => cases listed
  | cons member rest induction =>
      have fewer := advances.openCount_le rest
      unfold openCount at induction fewer ⊢
      rw [List.countP_cons, List.countP_cons]
      rcases List.mem_cons.mp listed with rfl | later
      · simp only [opened, closed, if_true, Bool.false_eq_true, if_false]
        omega
      · have less := induction later
        by_cases still : after.isOpen member = true
        · have before_open := advances.isOpen still
          simp only [still, before_open, if_true]
          omega
        · rw [if_neg still]
          exact Nat.lt_of_lt_of_le less (Nat.le_add_right _ _)

/-- Changes to a prototype that keep its status. -/
theorem status_refineParam (proto : Prototype) (slot : Nat) (type : Ty) :
    (proto.refineParam slot type).2.status = proto.status := by
  unfold Prototype.refineParam
  split
  · split <;> rfl
  · rfl

theorem status_refineReturn (proto : Prototype) (type : Ty) :
    (proto.refineReturn type).2.status = proto.status := by
  unfold Prototype.refineReturn
  split <;> rfl

theorem status_refineParams (proto : Prototype) (types : List Ty) :
    (InferenceInput.refineParams proto types).2.status = proto.status := by
  have folded : ∀ (entries : List (Ty × Nat)) (found : Nat × Prototype),
      (entries.foldl (fun found entry =>
        let learned := found.2.refineParam entry.2 entry.1
        (found.1 + learned.1.toNat, learned.2)) found).2.status = found.2.status := by
    intro entries
    induction entries with
    | nil => exact fun _ => rfl
    | cons entry entries induction =>
        intro found
        rw [List.foldl_cons, induction, status_refineParam]
  exact folded types.zipIdx (0, proto)

theorem advances_mergeOutcome (proto : Prototype) (outcome : WalkOutcome) :
    proto.status.Advances (InferenceInput.mergeOutcome proto outcome).2.status := by
  unfold InferenceInput.mergeOutcome
  split
  · exact .settle _
  · split
    · dsimp only
      rw [status_refineReturn, status_refineParams]
      exact .refl _
    · exact .refl _

theorem follows_refineCallees (state : InferenceState) (refinements : List Refinement) :
    state.Follows (state.refineCallees refinements).2 := by
  have folded : ∀ (refinements : List Refinement) (found : Nat × InferenceState),
      found.2.Follows (refinements.foldl
        (fun found refinement =>
          let learned :=
            (found.2.proto refinement.callee).refineParam refinement.slot refinement.type
          (found.1 + learned.1.toNat, found.2.setProto refinement.callee learned.2)) found).2 := by
    intro refinements
    induction refinements with
    | nil => exact fun found => .refl _
    | cons refinement refinements induction =>
        intro found
        rw [List.foldl_cons]
        refine Follows.trans (Follows.setProto found.2 ?_) (induction (_, _))
        rw [status_refineParam]
        exact .refl _
  exact folded refinements (0, state)

theorem follows_recordHeights {heights : List (Nat × Int)}
    (recorded : before.recordHeights heights = .ok after) : before.Follows after := by
  unfold recordHeights at recorded
  simp only [bind, Except.bind] at recorded
  split at recorded
  · cases recorded
  · cases recorded
    exact .ofEq rfl rfl

end InferenceState

/-- A step of inference from a given state ends, if it succeeds, as some property says. -/
def Infer.Leads {α : Type} (before : InferenceState) (action : Infer α)
    (post : α → InferenceState → Prop) : Prop :=
  ∀ value after, action.run before = .ok (value, after) → post value after

namespace Infer

variable {α β : Type} {before : InferenceState}

theorem Leads.value {post : α → InferenceState → Prop} {value : α} (holds : post value before) :
    Leads before (pure value : Infer α) post := by
  intro result after ran
  cases ran
  exact holds

theorem Leads.bind {action : Infer α} {next : α → Infer β} {middle : α → InferenceState → Prop}
    {post : β → InferenceState → Prop} (first : Leads before action middle)
    (second : ∀ value between, middle value between → Leads between (next value) post) :
    Leads before (action >>= next) post := by
  intro result after ran
  rw [StateT.run_bind] at ran
  cases gone : action.run before with
  | error fault =>
      rw [gone] at ran
      cases ran
  | ok pair =>
      rw [gone] at ran
      exact second pair.1 pair.2 (first _ _ gone) result after ran

theorem Leads.weaken {action : Infer α} {strong weak : α → InferenceState → Prop}
    (leads : Leads before action strong)
    (implies : ∀ value after, strong value after → weak value after) : Leads before action weak :=
  fun value after ran => implies value after (leads value after ran)

theorem Leads.reads {next : InferenceState → Infer β} {post : β → InferenceState → Prop}
    (leads : Leads before (next before) post) :
    Leads before ((get : Infer InferenceState) >>= next) post := by
  have read : Leads before (get : Infer InferenceState) fun value between =>
      value = before ∧ between = before := by
    intro value after ran
    cases ran
    exact ⟨rfl, rfl⟩
  refine read.bind ?_
  rintro _ _ ⟨rfl, rfl⟩
  exact leads

theorem Leads.writes {state : InferenceState} {next : Unit → Infer β}
    {post : β → InferenceState → Prop} (leads : Leads state (next ()) post) :
    Leads before ((set state : Infer Unit) >>= next) post := by
  have written : Leads before (set state : Infer Unit) fun _ between => between = state := by
    intro value after ran
    cases ran
    rfl
  refine written.bind ?_
  rintro _ _ rfl
  exact leads

theorem Leads.changes {change : InferenceState → InferenceState} {next : Unit → Infer β}
    {post : β → InferenceState → Prop} (leads : Leads (change before) (next ()) post) :
    Leads before ((modify change : Infer Unit) >>= next) post := by
  have changed : Leads before (modify change : Infer Unit) fun _ between =>
      between = change before := by
    intro value after ran
    cases ran
    rfl
  refine changed.bind ?_
  rintro _ _ rfl
  exact leads

theorem Leads.lift {outcome : Except Fault α} {next : α → Infer β}
    {post : β → InferenceState → Prop}
    (leads : ∀ value, outcome = .ok value → Leads before (next value) post) :
    Leads before ((liftM outcome : Infer α) >>= next) post := by
  have lifted : Leads before (liftM outcome : Infer α) fun value between =>
      outcome = .ok value ∧ between = before := by
    intro value after ran
    cases outcome with
    | error fault => cases ran
    | ok found =>
        cases ran
        exact ⟨rfl, rfl⟩
  refine lifted.bind ?_
  rintro value _ ⟨found, rfl⟩
  exact leads value found

/-- A loop keeps what each of its steps keeps. -/
theorem Leads.foldlM {items : List β} {step : α → β → Infer α}
    {holds : α → InferenceState → Prop}
    (each : ∀ item ∈ items, ∀ value state, holds value state →
      Leads state (step value item) holds) {start : α} (begins : holds start before) :
    Leads before (items.foldlM step start) holds := by
  induction items generalizing start before with
  | nil => exact .value begins
  | cons item items induction =>
      rw [List.foldlM_cons]
      exact (each item List.mem_cons_self start before begins).bind fun value between kept =>
        induction (fun other listed => each other (List.mem_cons_of_mem _ listed)) kept

end Infer

namespace InferenceInput

open InferenceState (Advances Follows)
open Infer (Leads)

variable {input : InferenceInput} {before : InferenceState} {globals : List Ty} {sub : Nat}

theorem explore_leads (budget : Option Nat) (queued : Nat) :
    Leads before (input.explore globals budget queued sub) fun _ after => before.Follows after := by
  unfold explore
  refine .reads (.lift fun exploration _ => .writes (.value ?_))
  exact .setProto before (.refl _)

theorem applyEvidence_leads (outcome : WalkOutcome) :
    Leads before (applyEvidence outcome) fun _ after => before.Follows after := by
  unfold applyEvidence
  refine .reads (.lift fun recorded found => .writes (.value ?_))
  exact (before.follows_refineCallees outcome.refinements).trans
    (InferenceState.follows_recordHeights found)

/-- Settling a subroutine closes it. -/
theorem settle_leads (outcome : WalkOutcome) (inside : sub < before.protos.size) :
    Leads before (settle sub outcome) fun _ after =>
      before.Follows after ∧ (after.proto sub).status = .done := by
  unfold settle
  refine .changes ((applyEvidence_leads outcome).bind fun _ after follows => .value ?_)
  have installed : ∀ proto : Prototype, proto.status = .done →
      before.Follows (before.setProto sub proto) := by
    intro proto known
    exact .setProto before (known ▸ .settle _)
  refine ⟨(installed _ rfl).trans follows, (follows.status sub).done ?_⟩
  rw [InferenceState.proto_setProto_eq, if_pos ⟨rfl, inside⟩]
  rfl

/-- What one attempt at a subroutine does to a state. -/
structure Attempted (sub : Nat) (before : InferenceState) (settled : Bool)
    (after : InferenceState) : Prop extends Advances before after where
  /-- At most the subroutine itself is given up, and it is open before and closed then. -/
  failures : after.failures = before.failures ∨
    ∃ fault, after.failures = before.failures ++ [(sub, fault)] ∧
      before.isOpen sub = true ∧ after.isOpen sub = false
  /-- The attempt succeeded only if it closed the subroutine. -/
  progress : settled = true → before.isOpen sub = true ∧ after.isOpen sub = false

theorem isOpen_eq_false_of_status {state : InferenceState} {status : ProtoStatus}
    (known : (state.proto sub).status = status) (closed : ¬status.IsOpen) :
    state.isOpen sub = false := by
  rw [← Bool.not_eq_true, InferenceState.isOpen_iff, known]
  exact closed

theorem attempt_leads (budget : Option Nat) (inside : sub < before.protos.size) :
    Leads before (input.attempt globals budget sub) fun settled after =>
      Attempted sub before settled after := by
  unfold attempt
  refine .reads ?_
  split
  · rename_i opened
    have started := before.isOpen_iff sub |>.mp opened
    refine .changes (.reads ?_)
    have first : before.Follows
        (before.setProto sub { before.proto sub with status := .inProgress }) :=
      .setProto before (.ofOpen started _)
    refine (explore_leads budget _).bind fun answer explored follows => .changes ?_
    obtain ⟨result, queued⟩ := answer
    have reached : before.Follows
        { explored with queued := explored.queued.setIfInBounds sub queued } :=
      (first.trans follows).trans (.ofEq rfl rfl)
    dsimp only
    generalize ({ explored with queued := explored.queued.setIfInBounds sub queued } :
      InferenceState) = noted at reached ⊢
    have counted : sub < noted.protos.size := by
      rw [reached.count]
      exact inside
    cases result with
    | found outcome =>
        refine (settle_leads outcome counted).bind fun _ after settled => .value ?_
        have all := reached.trans settled.1
        exact ⟨all.toAdvances, .inl all.failures, fun _ =>
          ⟨opened, isOpen_eq_false_of_status settled.2 (by simp [ProtoStatus.IsOpen])⟩⟩
    | blocked callee =>
        exact .value ⟨reached.toAdvances, .inl reached.failures, fun absent => absurd absent Bool.false_ne_true⟩
    | limitExceeded =>
        refine .changes (.value ?_)
        have advances : before.Advances (input.giveUp sub noted) := by
          refine ⟨by rw [← reached.count]; simp [InferenceState.setProto], fun other => ?_⟩
          rw [proto_giveUp, InferenceState.proto_setProto_eq]
          split
          · rename_i here
            rw [here.1]
            exact .ofOpen started _
          · exact reached.status other
        have closed : (input.giveUp sub noted).isOpen sub = false := by
          refine isOpen_eq_false_of_status (?_ : _ = .failed) (by simp [ProtoStatus.IsOpen])
          rw [proto_giveUp, InferenceState.proto_setProto_eq, if_pos ⟨rfl, counted⟩]
        refine ⟨⟨advances.count, advances.status⟩, .inr ⟨input.limitFault sub, ?_, opened, closed⟩,
          fun absent => absurd absent Bool.false_ne_true⟩
        rw [← reached.failures, failures_giveUp]
  · exact .value ⟨.refl before, .inl rfl, fun absent => absurd absent Bool.false_ne_true⟩

/-- Some subroutines are settled, and those that were given up are closed and listed once. -/
structure Settling (input : InferenceInput) (settled : List Nat) (state : InferenceState) :
    Prop where
  /-- There is a prototype for each subroutine. -/
  count : state.protos.size = input.program.subroutineCount
  /-- The prototypes of the settled ones are known. -/
  done : ∀ sub ∈ settled, (state.proto sub).status = .done
  /-- No subroutine was given up twice. -/
  once : (state.failures.map (·.1)).Nodup
  /-- A subroutine that was given up is not open. -/
  closed : ∀ failure ∈ state.failures, state.isOpen failure.1 = false

variable {after : InferenceState} {settled component : List Nat}

theorem Settling.mono {fewer : List Nat} (settling : input.Settling settled before)
    (subset : fewer ⊆ settled) : input.Settling fewer before :=
  { settling with done := fun sub listed => settling.done sub (subset listed) }

theorem Settling.follows (settling : input.Settling settled before) (follows : before.Follows after) :
    input.Settling settled after where
  count := follows.count.trans settling.count
  done := fun sub listed => (follows.status sub).done (settling.done sub listed)
  once := by
    rw [follows.failures]
    exact settling.once
  closed := by
    intro failure listed
    rw [follows.failures] at listed
    exact follows.isOpen_eq_false (settling.closed failure listed)

theorem Settling.attempted {progress : Bool} (settling : input.Settling settled before)
    (attempted : Attempted sub before progress after) : input.Settling settled after := by
  have known : ∀ failure ∈ before.failures, after.isOpen failure.1 = false :=
    fun failure listed => attempted.isOpen_eq_false (settling.closed failure listed)
  refine ⟨attempted.count.trans settling.count,
    fun other listed => (attempted.status other).done (settling.done other listed), ?_, ?_⟩
  · rcases attempted.failures with same | ⟨fault, more, opened, _⟩
    · rw [same]
      exact settling.once
    · have absent : sub ∉ before.failures.map (·.1) := by
        intro listed
        obtain ⟨failure, found, rfl⟩ := List.mem_map.mp listed
        rw [settling.closed failure found] at opened
        cases opened
      rw [more, List.map_append, List.nodup_append]
      refine ⟨settling.once, by simp, fun one listed other found same => absent ?_⟩
      obtain rfl : other = sub := List.mem_singleton.mp found
      exact same ▸ listed
  · intro failure listed
    rcases attempted.failures with same | ⟨fault, more, _, closed⟩
    · exact known failure (same ▸ listed)
    · rw [more] at listed
      rcases List.mem_append.mp listed with old | new
      · exact known failure old
      · rw [List.mem_singleton.mp new]
        exact closed

/-- A round of attempts leaves fewer members open, or says that it settled none. -/
theorem attemptAll_leads (budget : Option Nat)
    (inside : ∀ sub ∈ component, sub < before.protos.size) :
    Leads before (input.attemptAll globals budget component) fun progress after =>
      before.Advances after ∧
        (progress = true → after.openCount component < before.openCount component) ∧
        ∀ settled, input.Settling settled before → input.Settling settled after := by
  unfold attemptAll
  refine .foldlM (fun sub listed progress state holds => ?_)
    ⟨.refl before, fun absent => absurd absent Bool.false_ne_true, fun _ settling => settling⟩
  obtain ⟨advances, fewer, kept⟩ := holds
  have counted : sub < state.protos.size := by
    rw [advances.count]
    exact inside sub listed
  refine (attempt_leads budget counted).bind fun found after attempted => .value ?_
  refine ⟨advances.trans attempted.toAdvances, fun made => ?_,
    fun settled settling => (kept settled settling).attempted attempted⟩
  have before_le := advances.openCount_le component
  rcases Bool.or_eq_true_iff.mp made with now | earlier
  · obtain ⟨opened, closed⟩ := attempted.progress now
    exact Nat.lt_of_lt_of_le (attempted.openCount_lt listed opened closed) before_le
  · exact Nat.lt_of_le_of_lt (attempted.openCount_le component) (fewer earlier)

/-- A pass ends by itself once it may make more rounds than there are open members. -/
theorem run_pass_succ (budget : Option Nat) {rounds : Nat}
    (inside : ∀ sub ∈ component, sub < before.protos.size)
    (enough : before.openCount component < rounds) :
    (input.pass globals budget component (rounds + 1)).run before =
      (input.pass globals budget component rounds).run before := by
  induction rounds generalizing before with
  | zero => exact absurd enough (Nat.not_lt_zero _)
  | succ rounds induction =>
      have leads : Leads before (input.attemptAll globals budget component) _ :=
        attemptAll_leads budget inside
      unfold pass
      rw [StateT.run_bind, StateT.run_bind]
      cases ran : (input.attemptAll globals budget component).run before with
      | error fault => rfl
      | ok pair =>
          obtain ⟨progress, after⟩ := pair
          obtain ⟨advances, fewer, _⟩ := leads progress after ran
          cases progress with
          | false => rfl
          | true =>
              refine induction (fun sub listed => ?_) ?_
              · rw [advances.count]
                exact inside sub listed
              · exact Nat.lt_of_lt_of_le (fewer rfl) (Nat.lt_succ_iff.mp enough)

/-- The rounds that a pass may make are more than it ever makes. -/
theorem run_pass_of_le (budget : Option Nat) {rounds : Nat}
    (inside : ∀ sub ∈ component, sub < before.protos.size)
    (enough : component.length + 1 ≤ rounds) :
    (input.pass globals budget component rounds).run before =
      (input.pass globals budget component (component.length + 1)).run before := by
  obtain ⟨more, rfl⟩ := Nat.exists_eq_add_of_le enough
  induction more with
  | zero => rfl
  | succ more induction =>
      have bound := before.openCount_le_length component
      rw [← Nat.add_assoc, run_pass_succ budget inside (by omega),
        induction (Nat.le_add_right _ _)]

theorem pass_leads (settling : input.Settling settled before)
    (inside : ∀ sub ∈ component, sub < input.program.subroutineCount) (budget : Option Nat)
    (rounds : Nat) :
    Leads before (input.pass globals budget component rounds) fun _ after =>
      input.Settling settled after := by
  induction rounds generalizing before with
  | zero => exact .value settling
  | succ rounds induction =>
      unfold pass
      have counted : ∀ sub ∈ component, sub < before.protos.size := by
        rw [settling.count]
        exact inside
      refine (attemptAll_leads budget counted).bind fun progress between holds => ?_
      have kept := holds.2.2 settled settling
      split
      · exact induction kept
      · exact .value kept

theorem passes_leads (settling : input.Settling settled before)
    (inside : ∀ sub ∈ component, sub < input.program.subroutineCount)
    (budgets : List (Option Nat)) :
    Leads before (input.passes globals component budgets) fun _ after =>
      input.Settling settled after := by
  induction budgets generalizing before with
  | nil => exact .value settling
  | cons budget budgets induction =>
      unfold passes
      refine .reads ?_
      split
      · exact (pass_leads settling inside budget _).bind fun _ between kept => induction kept
      · exact .value settling

/-- A guess settles a subroutine that no path settled. -/
theorem guess_leads (settling : input.Settling settled before)
    (inside : sub < input.program.subroutineCount) :
    Leads before (input.guess sub) fun _ after => input.Settling (sub :: settled) after := by
  unfold guess
  refine .reads ?_
  dsimp only
  split
  · refine .lift fun guess _ => ?_
    intro value after ran
    cases ran
    have follows : before.Follows
        (before.setProto sub ((before.proto sub).installGuess guess)) :=
      .setProto before (.settle _)
    have reported : (before.setProto sub ((before.proto sub).installGuess guess)).Follows
        (input.report (.assumed sub guess)
          (before.setProto sub ((before.proto sub).installGuess guess))) :=
      .ofEq (input.protos_report _ _) (input.failures_report _ _)
    have kept := settling.follows (follows.trans reported)
    refine ⟨kept.count, ?_, kept.once, kept.closed⟩
    rintro other (_ | ⟨_, listed⟩)
    · rw [proto_report, InferenceState.proto_setProto_eq, if_pos ⟨rfl, settling.count ▸ inside⟩]
      rfl
    · exact kept.done other listed
  · rename_i known
    refine .value ⟨settling.count, ?_, settling.once, settling.closed⟩
    rintro other (_ | ⟨_, listed⟩)
    · simpa [Prototype.isPrototyped] using known
    · exact settling.done other listed

theorem forM_guess_leads (settling : input.Settling settled before)
    (inside : ∀ sub ∈ component, sub < input.program.subroutineCount) :
    Leads before (component.forM input.guess) fun _ after =>
      input.Settling (component ++ settled) after := by
  induction component generalizing settled before with
  | nil => exact .value settling
  | cons sub rest induction =>
      refine (guess_leads settling (inside sub List.mem_cons_self)).bind fun _ between kept => ?_
      refine (induction kept fun other listed =>
        inside other (List.mem_cons_of_mem _ listed)).weaken fun _ after final => ?_
      exact final.mono List.perm_middle.symm.subset

/-- Solving components settles their members. -/
theorem forM_solveComponent_leads {components : List (List Nat)}
    (settling : input.Settling settled before)
    (inside : ∀ sub ∈ components.flatten, sub < input.program.subroutineCount) :
    Leads before (components.forM (input.solveComponent globals)) fun _ after =>
      input.Settling (components.flatten ++ settled) after := by
  induction components generalizing settled before with
  | nil => exact .value settling
  | cons component rest induction =>
      have members : ∀ sub ∈ component, sub < input.program.subroutineCount :=
        fun sub listed => inside sub (List.mem_append_left _ listed)
      have solved : Leads before (input.solveComponent globals component) fun _ after =>
          input.Settling (component ++ settled) after :=
        (passes_leads settling members _).bind fun _ between kept => forM_guess_leads kept members
      refine solved.bind fun _ between kept => ?_
      refine (induction kept fun sub listed => inside sub (List.mem_append_right _ listed)).weaken
        fun _ after final => ?_
      refine final.mono fun sub listed => ?_
      rw [List.flatten_cons, List.append_assoc] at listed
      exact (List.perm_append_comm_assoc _ _ _).subset listed

theorem merge_leads (outcome : WalkOutcome) :
    Leads before (merge sub outcome) fun _ after => before.Follows after := by
  unfold merge
  refine .reads (.writes ?_)
  have merged : before.Follows
      (before.setProto sub (mergeOutcome (before.proto sub) outcome).2) :=
    .setProto before (InferenceState.advances_mergeOutcome _ _)
  exact (applyEvidence_leads outcome).bind fun _ after more => .value (merged.trans more)

theorem refineOne_leads (sub : Nat) :
    Leads before (input.refineOne globals sub) fun _ after => before.Follows after := by
  unfold refineOne
  refine .reads ?_
  split
  · refine (explore_leads _ 0).bind fun answer between follows => ?_
    split
    · exact (merge_leads _).weaken fun _ after more => follows.trans more
    · exact .value follows
  · exact .value (.refl before)

theorem refine_leads (rounds : Nat) :
    Leads before (input.refine globals rounds) fun _ after => before.Follows after := by
  induction rounds generalizing before with
  | zero => exact .value (.refl before)
  | succ rounds induction =>
      unfold refine refineRound
      have round : Leads before (input.refineRound globals) fun _ after => before.Follows after :=
        .foldlM (fun sub _ changes state follows =>
          (refineOne_leads sub).bind fun _ after more => .value (follows.trans more)) (.refl before)
      refine round.bind fun changes between follows => ?_
      split
      · exact induction.weaken fun _ after more => follows.trans more
      · exact .value follows

/-- Inference settles the members of all components. -/
theorem infer_leads (layout : Layout) (settling : input.Settling [] before)
    (inside : ∀ sub ∈ input.calls.components.flatten, sub < input.program.subroutineCount) :
    Leads before (input.infer layout) fun inference after =>
      input.Settling input.calls.components.flatten after ∧ inference.protos = after.protos ∧
        inference.failures = after.failures := by
  unfold infer
  refine .reads (.lift fun found _ => ?_)
  refine (forM_solveComponent_leads settling inside).bind fun _ solved settled => ?_
  rw [List.append_nil] at settled
  have rest : ∀ (types : List Ty) (state : InferenceState),
      input.Settling input.calls.components.flatten state →
      Leads state (do
        input.refine types input.limits.refinementRounds
        let state ← get
        return ⟨state.protos, types, state.failures⟩ : Infer Inference) fun inference after =>
          input.Settling input.calls.components.flatten after ∧ inference.protos = after.protos ∧
            inference.failures = after.failures := by
    intro types state kept
    exact (refine_leads _).bind fun _ after follows =>
      .reads (.value ⟨kept.follows follows, rfl, rfl⟩)
  cases found with
  | some types => exact rest types solved settled
  | none => exact .reads (.lift fun again _ => rest _ solved settled)

end InferenceInput
end NwScript
