import NwScript.Proofs.ExplorationOrder
import NwScript.Proofs.GuardedWalks
import NwScript.Proofs.RefinementRounds

/-!
# Calls that converge

An attempt at a subroutine that prints and calls succeeds as soon as the callees are known that it calls
without a test.  So the first round over a component settles all its members, in whatever order it lists
them and however they call each other.  Nothing is left for later passes, guesses and refinement.
-/

namespace NwScript

/-- A prototype without parameters and result that is no guess, and typed once it is known. -/
structure Prototype.IsPlain (proto : Prototype) : Prop where
  /-- No parameter slots. -/
  slots : proto.slots = []
  /-- No result. -/
  returnType : proto.returnType = .void
  /-- No guess. -/
  fallback : proto.flags.fallback = false
  /-- The search was not given up. -/
  hopeful : proto.status ≠ .failed
  /-- Nothing is left to learn. -/
  typed : proto.status = .done → proto.isFullyTyped = true

namespace Prototype

variable {proto : Prototype}

theorem params_eq_nil (empty : proto.slots = []) : proto.params = [] := by
  rw [params, empty, paramsFrom]

theorem isPlain_initial (flags : ProtoFlags) (genuine : flags.fallback = false) :
    IsPlain { flags } where
  slots := rfl
  returnType := rfl
  fallback := genuine
  hopeful := nofun
  typed := nofun

theorem isPlain_install (genuine : proto.flags.fallback = false) (groups : List (Nat × Nat))
    (depth : Option Nat) : (proto.install [] groups .void depth).IsPlain where
  slots := rfl
  returnType := rfl
  fallback := genuine
  hopeful := nofun
  typed := fun _ => by
    have typed : (proto.install [] groups .void depth).flags.paramsTyped = true := by
      show (params _).all Ty.isFullyTyped = true
      rw [params_eq_nil rfl]
      rfl
    rw [isFullyTyped, typed]
    rfl

end Prototype

namespace InferenceState

variable {before after : InferenceState}

/-- Only stack heights are recorded. -/
theorem exists_of_recordHeights {heights : List (Nat × Int)}
    (recorded : before.recordHeights heights = .ok after) :
    ∃ table, before.table.SameFlow table ∧ after = { before with table } := by
  have flow := ((Alike.refl before).recordHeights recorded).2.flow
  rw [recordHeights_eq] at recorded
  cases done : heights.foldlM (fun table entry => FlowTable.setHeight table entry.1 entry.2)
      before.table with
  | error fault =>
      rw [done] at recorded
      cases recorded
  | ok table =>
      rw [done] at recorded
      cases recorded
      exact ⟨table, flow, rfl⟩

/-- A search found that a subroutine has neither parameters nor a result. -/
structure Finds (sub : Nat) (before after : InferenceState) : Prop where
  /-- Only stack heights are recorded. -/
  flow : before.table.SameFlow after.table
  /-- What was found is installed. -/
  own : ∃ decisions groups depth, after.proto sub =
    ({ before.proto sub with decisions } : Prototype).install [] groups .void depth
  /-- No other prototype changes. -/
  others : ∀ other, other ≠ sub → after.proto other = before.proto other
  /-- The decisions of others stay queued. -/
  queued : ∀ other, other ≠ sub → after.queued.getD other 0 = before.queued.getD other 0
  /-- The search was not given up. -/
  failures : after.failures = before.failures

/-- An exploration changes only the prototype of its subroutine. -/
theorem proto_explored (state : InferenceState) (sub other : Nat) (exploration : Exploration) :
    ((state.begun sub).explored sub exploration).proto other =
      if other = sub ∧ sub < state.protos.size then
        { state.proto sub with status := .inProgress, decisions := exploration.queue }
      else state.proto other := by
  have sized : (state.begun sub).protos.size = state.protos.size := by
    simp [begun, setProto]
  show ((state.begun sub).setProto sub { (state.begun sub).proto sub with
    decisions := exploration.queue }).proto other = _
  rw [proto_setProto_eq, sized, begun, proto_setProto_eq, proto_setProto_eq]
  split
  · rename_i here
    rw [if_pos ⟨rfl, here.2⟩]
  · rfl

/-- What an exploration finds is installed and recorded. -/
theorem finds_explored {sub : Nat} (counted : sub < before.protos.size) (exploration : Exploration)
    (groups : List (Nat × Nat)) (depth : Option Nat) {table : FlowTable}
    (flow : before.table.SameFlow table) :
    let noted := (before.begun sub).explored sub exploration
    before.Finds sub
      { noted.setProto sub ((noted.proto sub).install [] groups .void depth) with table } := by
  intro noted
  have sized : noted.protos.size = before.protos.size := by
    simp [noted, begun, explored, setProto]
  have protos : ∀ other, (noted.setProto sub ((noted.proto sub).install [] groups .void depth)).proto
      other = if other = sub then (noted.proto sub).install [] groups .void depth
        else before.proto other := by
    intro other
    rw [proto_setProto_eq, sized]
    by_cases same : other = sub
    · rw [if_pos ⟨same, counted⟩, if_pos same]
    · rw [if_neg fun here => same here.1, if_neg same, before.proto_explored,
        if_neg fun here => same here.1]
  refine ⟨flow, ⟨exploration.queue, groups, depth, (protos sub).trans ?_⟩,
    fun other apart => (protos other).trans (if_neg apart), fun other apart => ?_, rfl⟩
  · rw [if_pos rfl, before.proto_explored, if_pos ⟨rfl, counted⟩]
    rfl
  · show (before.queued.setIfInBounds sub exploration.queued).getD other 0 = _
    rw [Array.getD_eq_getD_getElem?, Array.getElem?_setIfInBounds_ne apart.symm,
      ← Array.getD_eq_getD_getElem?]

/-- The subroutines that one calls without a test are known. -/
def IsReady (state : InferenceState) (routines : List (List Passage)) (sub : Nat) : Prop :=
  ∀ passages, routines[sub]? = some passages → ∀ callee, .call callee ∈ passages →
    callee ≠ sub ∧ (state.proto callee).status = .done

theorem IsReady.advances {routines : List (List Passage)} {sub : Nat}
    (ready : before.IsReady routines sub) (advances : before.Advances after) :
    after.IsReady routines sub := by
  intro passages found callee listed
  obtain ⟨apart, known⟩ := ready passages found callee listed
  exact ⟨apart, (advances.status callee).done known⟩

end InferenceState

namespace InferenceInput

open Infer (Leads)
open InferenceState (Advances)

variable {input : InferenceInput} {table : FlowTable} {routines : List (List Passage)}
  {limit sub : Nat} {globals : List Ty} {before after : InferenceState} {component : List Nat}

/-- Nothing was guessed or given up, and no prototype shows parameters or a result. -/
structure Uneventful (input : InferenceInput) (table : FlowTable) (state : InferenceState) : Prop
    extends input.Sound table Prototype.IsPlain state where
  /-- No search queued decisions in vain. -/
  unqueued : ∀ sub, state.isOpen sub = true → state.queued.getD sub 0 = 0
  /-- No search was given up. -/
  failures : state.failures = []

/-- Some subroutines were settled, and nothing else happened. -/
structure Settles (input : InferenceInput) (table : FlowTable) (settled : List Nat)
    (before after : InferenceState) : Prop where
  /-- Nothing was guessed or given up. -/
  uneventful : input.Uneventful table after
  /-- What was known is known. -/
  advances : before.Advances after
  /-- They are known. -/
  done : ∀ sub ∈ settled, (after.proto sub).status = .done

theorem Settles.append {settled more : List Nat} {between : InferenceState}
    (first : input.Settles table settled before between)
    (second : input.Settles table more between after) :
    input.Settles table (settled ++ more) before after where
  uneventful := second.uneventful
  advances := first.advances.trans second.advances
  done := fun sub listed => (List.mem_append.mp listed).elim
    (fun old => (second.advances.status sub).done (first.done sub old)) (second.done sub)

theorem Uneventful.done_of_closed (uneventful : input.Uneventful table before)
    (closed : before.isOpen sub = false) : (before.proto sub).status = .done := by
  have hopeful := (uneventful.fits sub).hopeful
  unfold InferenceState.isOpen at closed
  cases status : (before.proto sub).status with
  | done => rfl
  | failed => exact absurd status hopeful
  | notStarted =>
      rw [status] at closed
      cases closed
  | inProgress =>
      rw [status] at closed
      cases closed

/-- Code that prints and calls, where no call without a test returns to its caller by further calls, and
settings with which one pass is enough for it. -/
structure Manages (input : InferenceInput) (table : FlowTable) (routines : List (List Passage))
    (limit : Nat) : Prop where
  /-- The code. -/
  made : input.program.IsMadeOf routines
  /-- Nothing is dead. -/
  live : FlowTable.AllLive input.program table
  /-- Every instruction is known. -/
  known : table.IsKnown input.program
  /-- The calls are those of the program. -/
  built : CallGraph.build input.program table = .ok input.calls
  /-- The actions are known. -/
  knows : Structured.Knows input.catalog
  /-- A call on a cycle has a test. -/
  acyclic : ∀ sub passages callee, routines[sub]? = some passages → .call callee ∈ passages →
    ¬Relation.ReflTransGen (Passage.Calls routines) callee sub
  /-- The first pass may try some paths. -/
  budget : ∃ later, input.limits.passBudgets = some limit :: later
  /-- There are fewer tests than paths that may be tried. -/
  few : ∀ passages ∈ routines, passages.countP (·.isGuarded) < limit
  /-- There is room for their decisions. -/
  room : limit * limit ≤ input.limits.maxDecisions

section Attempts

/-- What a plain walk shows is installed, and heights are recorded. -/
theorem conclude_leads_plain {outcome : WalkOutcome} (plain : outcome.IsPlain) :
    Leads before (input.conclude sub (.found outcome)) fun _ after =>
      ∃ table, before.table.SameFlow table ∧
        after = { before.setProto sub ((before.proto sub).install [] outcome.groups .void
          outcome.returnDepth) with table } := by
  obtain ⟨slots, groups, returnType, depth, refinements, heights⟩ := outcome
  obtain ⟨slots_eq, returnType_eq, refinements_eq⟩ := plain
  dsimp only at slots_eq returnType_eq refinements_eq
  subst slots_eq returnType_eq refinements_eq
  unfold conclude settle applyEvidence
  refine Leads.bind (.changes (Leads.bind (.reads (.lift fun recorded found => .writes (.value ?_)))
    fun _ _ kept => .value kept)) fun _ _ kept => .value kept
  exact InferenceState.exists_of_recordHeights found

theorem Manages.calling (manages : input.Manages table routines limit)
    (uneventful : input.Uneventful table before) :
    (input.context (before.begun sub) globals sub).Calling routines where
  made := manages.made
  live := manages.live.of_sameFlow uneventful.flow
  targets := by
    intro command inside callee bound here leads
    exact (CallGraph.target?_eq_some_iff manages.built).mpr
      (manages.made.liveCall manages.live inside bound here leads)
  knows := manages.knows
  protos := by
    intro callee bound
    have inside : callee < (before.begun sub).protos.size := by
      rw [InferenceState.begun, InferenceState.setProto, Array.size_setIfInBounds,
        uneventful.count, manages.made.subroutineCount]
      exact bound
    refine ⟨(before.begun sub).proto callee, ?_, ?_⟩
    · show (before.begun sub).protos[callee]? = _
      rw [InferenceState.proto, Array.getD_eq_getD_getElem?, Array.getElem?_eq_getElem inside]
      rfl
    · have plain := uneventful.fits callee
      rw [InferenceState.begun, InferenceState.proto_setProto_eq]
      split
      · rename_i here
        obtain ⟨rfl, -⟩ := here
        exact ⟨plain.slots, plain.returnType⟩
      · exact ⟨plain.slots, plain.returnType⟩

/-- An exploration finds a plain walk once the callees are known that are called without a test. -/
theorem Manages.exists_explore (manages : input.Manages table routines limit)
    (uneventful : input.Uneventful table before) (ready : before.IsReady routines sub)
    (inside : sub < input.program.subroutineCount) (globals : List Ty) :
    ∃ exploration outcome,
      (input.context (before.begun sub) globals sub).explore (some limit) input.limits.maxDecisions 0
          .empty = .ok exploration ∧
        exploration.result = .found outcome ∧ outcome.IsPlain := by
  have bound : sub < routines.length := manages.made.subroutineCount ▸ inside
  have found := List.getElem?_eq_getElem bound
  have calling : (input.context (before.begun sub) globals sub).Calling routines :=
    manages.calling uneventful
  have few := manages.few _ (List.getElem_mem bound)
  have clears := calling.clears_walks found fun callee listed => by
    obtain ⟨apart, known⟩ := ready _ found callee listed
    have begun : ((before.begun sub).proto callee).status = .done := by
      rw [InferenceState.begun, InferenceState.proto_setProto_eq, if_neg fun here => apart here.1]
      exact known
    exact ⟨apart, InferenceState.exists_of_done begun⟩
  exact TypingContext.exists_explore_of_clears clears few
    ((Nat.mul_le_mul few few).trans manages.room)

theorem Uneventful.settles_of_finds (uneventful : input.Uneventful table before)
    (advances : before.Advances after) (finds : before.Finds sub after) :
    input.Settles table [sub] before after := by
  obtain ⟨decisions, groups, depth, own⟩ := finds.own
  have known : (after.proto sub).status = .done := by
    rw [own]
    rfl
  refine ⟨⟨⟨uneventful.flow.trans finds.flow, advances.count.trans uneventful.count,
    fun other => ?_⟩, fun other still => ?_, finds.failures.trans uneventful.failures⟩, advances,
    fun _ listed => List.mem_singleton.mp listed ▸ known⟩
  · by_cases same : other = sub
    · have genuine := (uneventful.fits sub).fallback
      rw [same, own]
      exact Prototype.isPlain_install (by exact genuine) _ _
    · rw [finds.others other same]
      exact uneventful.fits other
  · have apart : other ≠ sub := by
      rintro rfl
      rw [isOpen_eq_false_of_status known (by simp [ProtoStatus.IsOpen])] at still
      cases still
    rw [finds.queued other apart]
    exact uneventful.unqueued other (advances.isOpen still)

/-- An attempt at a subroutine settles it once the callees are known that are called without a test. -/
theorem Manages.attempt_settles (manages : input.Manages table routines limit)
    (uneventful : input.Uneventful table before) (ready : before.IsReady routines sub)
    (inside : sub < input.program.subroutineCount) :
    Leads before (input.attempt globals (some limit) sub) fun _ after =>
      input.Settles table [sub] before after := by
  intro value after ran
  have counted : sub < before.protos.size := uneventful.count.symm ▸ inside
  have advances := (attempt_leads (some limit) counted value after ran).toAdvances
  by_cases opened : before.isOpen sub = true
  · obtain ⟨exploration, outcome, explored, found, plain⟩ :=
      manages.exists_explore uneventful ready inside globals
    rw [run_attempt opened, uneventful.unqueued sub opened, explored] at ran
    change (input.conclude sub exploration.result).run
      ((before.begun sub).explored sub exploration) = _ at ran
    rw [found] at ran
    obtain ⟨heights, flow, final⟩ := conclude_leads_plain plain value after ran
    refine uneventful.settles_of_finds advances ?_
    rw [final]
    exact InferenceState.finds_explored counted exploration _ _ flow
  · rw [Bool.not_eq_true] at opened
    rw [run_attempt_of_closed opened] at ran
    cases ran
    exact ⟨uneventful, .refl before,
      fun _ listed => List.mem_singleton.mp listed ▸ uneventful.done_of_closed opened⟩

/-- One round of attempts settles a component. -/
theorem Manages.attemptAll_settles (manages : input.Manages table routines limit)
    (uneventful : input.Uneventful table before)
    (ready : ∀ sub ∈ component, before.IsReady routines sub)
    (inside : ∀ sub ∈ component, sub < input.program.subroutineCount) :
    Leads before (input.attemptAll globals (some limit) component) fun _ after =>
      input.Settles table component before after := by
  unfold attemptAll
  generalize false = progress
  induction component generalizing before progress with
  | nil => exact .value ⟨uneventful, .refl before, fun _ absent => absurd absent List.not_mem_nil⟩
  | cons sub rest induction =>
      rw [List.foldlM_cons]
      have attempted : Leads before (do return (← input.attempt globals (some limit) sub) || progress)
          fun _ after => input.Settles table [sub] before after :=
        (manages.attempt_settles uneventful (ready sub List.mem_cons_self)
          (inside sub List.mem_cons_self)).bind fun _ _ kept => .value kept
      refine attempted.bind fun _ between settles => ?_
      refine (induction settles.uneventful (fun other listed => ?_)
        (fun other listed => inside other (List.mem_cons_of_mem _ listed)) _).weaken
          fun _ after more => settles.append more
      exact (ready other (List.mem_cons_of_mem _ listed)).advances settles.advances

/-- Further rounds change nothing about that. -/
theorem Manages.pass_settles (manages : input.Manages table routines limit)
    (uneventful : input.Uneventful table before)
    (ready : ∀ sub ∈ component, before.IsReady routines sub)
    (inside : ∀ sub ∈ component, sub < input.program.subroutineCount) (rounds : Nat) :
    Leads before (input.pass globals (some limit) component (rounds + 1)) fun _ after =>
      input.Settles table component before after := by
  induction rounds generalizing before with
  | zero =>
      unfold pass
      refine (manages.attemptAll_settles uneventful ready inside).bind fun progress between settles => ?_
      split <;> exact .value settles
  | succ rounds induction =>
      unfold pass
      refine (manages.attemptAll_settles uneventful ready inside).bind fun progress between settles => ?_
      split
      · refine (induction settles.uneventful fun sub listed =>
          (ready sub listed).advances settles.advances).weaken fun _ after more => ?_
        exact ⟨more.uneventful, settles.advances.trans more.advances, more.done⟩
      · exact .value settles

/-- The first pass settles a component. -/
theorem Manages.passes_settles (manages : input.Manages table routines limit)
    (uneventful : input.Uneventful table before)
    (ready : ∀ sub ∈ component, before.IsReady routines sub)
    (inside : ∀ sub ∈ component, sub < input.program.subroutineCount) :
    Leads before (input.passes globals component input.limits.passBudgets) fun _ after =>
      input.Settles table component before after := by
  obtain ⟨later, budgets⟩ := manages.budget
  rw [budgets]
  unfold passes
  refine .reads ?_
  split
  · refine (manages.pass_settles uneventful ready inside component.length).bind
      fun _ between settles => ?_
    intro value after ran
    -- The later passes find no open member.
    have closed : component.any between.isOpen = false := by
      rw [List.any_eq_false]
      intro sub listed
      rw [isOpen_eq_false_of_status (settles.done sub listed) (by simp [ProtoStatus.IsOpen])]
      exact Bool.false_ne_true
    rw [run_passes_of_closed closed] at ran
    cases ran
    exact settles
  · rename_i closed
    refine .value ⟨uneventful, .refl before, fun sub listed => uneventful.done_of_closed ?_⟩
    rw [Bool.not_eq_true, List.any_eq_false] at closed
    exact Bool.not_eq_true _ ▸ closed sub listed

/-- Nothing is guessed. -/
theorem forM_guess_settles (settles : input.Settles table component before after)
    {members : List Nat} (subset : members ⊆ component) :
    Leads after (members.forM input.guess) fun _ last =>
      input.Settles table component before last := by
  induction members with
  | nil => exact .value settles
  | cons sub rest induction =>
      intro value last ran
      have known := settles.done sub (subset List.mem_cons_self)
      change (input.guess sub >>= fun _ => rest.forM input.guess : Infer Unit).run after = _ at ran
      rw [StateT.run_bind, run_guess_of_done known] at ran
      exact induction (fun _ listed => subset (List.mem_cons_of_mem _ listed)) value last ran

/-- Callees that are called without a test are in earlier components. -/
theorem Manages.mem_earlier (manages : input.Manages table routines limit)
    {earlier later : List (List Nat)} (split : input.calls.components = earlier ++ component :: later)
    (listed : sub ∈ component) {passages : List Passage} {callee : Nat}
    (found : routines[sub]? = some passages) (straight : .call callee ∈ passages) :
    callee ≠ sub ∧ callee ∈ earlier.flatten := by
  obtain ⟨sized, proper, same⟩ := CallGraph.graph_of_build manages.built
  have order := same ▸ Digraph.isComponentOrder_components proper
  have edge : input.calls.graph.Edge sub callee :=
    (manages.made.edge_iff_calls manages.live manages.built).mpr ⟨_, found, _, straight, rfl⟩
  have acyclic := manages.acyclic sub passages callee found straight
  have apart : callee ≠ sub := by
    rintro rfl
    exact acyclic .refl
  refine ⟨apart, (order.mem_earlier proper split listed edge).resolve_left fun member => acyclic ?_⟩
  -- From its own component the callee leads back to the caller.
  have known : component ∈ input.calls.components := by
    rw [split]
    exact List.mem_append_right _ List.mem_cons_self
  have node : sub < input.calls.graph.nodeCount :=
    List.mem_range.mp (order.partition.mem_iff.mp (List.mem_flatten.mpr ⟨_, known, listed⟩))
  obtain ⟨_, back⟩ := (order.connected _ node _ (proper _ _ edge)).mp ⟨_, known, listed, member⟩
  exact Relation.ReflTransGen.mono (fun _ _ edge =>
    (manages.made.edge_iff_calls manages.live manages.built).mp edge) _ _ back

/-- The components are settled one after the other. -/
theorem Manages.forM_solveComponent_settles (manages : input.Manages table routines limit)
    {earlier components : List (List Nat)} (split : input.calls.components = earlier ++ components)
    (settles : input.Settles table earlier.flatten before after) :
    Leads after (components.forM (input.solveComponent globals)) fun _ last =>
      input.Settles table input.calls.components.flatten before last := by
  induction components generalizing earlier after with
  | nil =>
      rw [split, List.append_nil]
      exact .value settles
  | cons component rest induction =>
      have perm := CallGraph.flatten_components_perm manages.built
      have inside : ∀ sub ∈ component, sub < input.program.subroutineCount := by
        intro sub listed
        refine List.mem_range.mp (perm.mem_iff.mp ?_)
        rw [split, List.flatten_append, List.flatten_cons]
        exact List.mem_append_right _ (List.mem_append_left _ listed)
      have ready : ∀ sub ∈ component, after.IsReady routines sub := by
        intro sub listed passages found callee straight
        obtain ⟨apart, member⟩ := manages.mem_earlier split listed found straight
        exact ⟨apart, settles.done callee member⟩
      have solved : Leads after (input.solveComponent globals component) fun _ between =>
          input.Settles table component after between :=
        (manages.passes_settles settles.uneventful ready inside).bind fun _ _ settles =>
          forM_guess_settles settles (List.Subset.refl _)
      refine solved.bind fun _ between more => ?_
      have further : input.calls.components = (earlier ++ [component]) ++ rest := by
        rw [split, List.append_assoc]
        rfl
      refine induction further ?_
      rw [List.flatten_append, List.flatten_singleton]
      exact settles.append more

end Attempts

section Settled

variable (manages : input.Manages table routines limit)
  (settles : input.Settles table input.calls.components.flatten before after)

include manages settles

/-- Nothing is left to learn once all components are settled. -/
theorem Settles.needsRefinement_eq_false (listed : sub ∈ input.calls.components.flatten) :
    input.needsRefinement after sub = false := by
  have typed : ∀ other ∈ input.calls.components.flatten, (after.proto other).isFullyTyped = true :=
    fun other listed => (settles.uneventful.fits other).typed (settles.done other listed)
  have callees : ((input.calls.callees sub).any fun callee => !(after.proto callee).isFullyTyped) =
      false := by
    rw [List.any_eq_false]
    intro callee called
    obtain ⟨sized, -, -⟩ := CallGraph.graph_of_build manages.built
    have node := List.mem_range.mp (List.mem_of_mem_filter called)
    have perm := CallGraph.flatten_components_perm manages.built
    rw [typed callee (perm.mem_iff.mpr (List.mem_range.mpr (sized ▸ node)))]
    exact Bool.false_ne_true
  rw [needsRefinement, typed sub listed, (settles.uneventful.fits sub).fallback, callees]
  rfl

/-- A round of refinement then changes nothing. -/
theorem Settles.refineRound_leads : Leads after (input.refineRound globals) fun changes last =>
    changes = 0 ∧ last = after := by
  unfold refineRound
  refine .foldlM (fun sub listed changes state holds => ?_) ⟨rfl, rfl⟩
  obtain ⟨rfl, rfl⟩ := holds
  have idle : Leads state (input.refineOne globals sub) fun changes last =>
      changes = 0 ∧ last = state := by
    unfold refineOne
    refine .reads ?_
    rw [settles.needsRefinement_eq_false manages listed]
    exact .value ⟨rfl, rfl⟩
  refine idle.bind fun changes last holds => .value ?_
  obtain ⟨rfl, rfl⟩ := holds
  exact ⟨rfl, rfl⟩

theorem Settles.refine_leads (rounds : Nat) : Leads after (input.refine globals rounds) fun _ last =>
    last = after := by
  cases rounds with
  | zero => exact .value rfl
  | succ rounds =>
      unfold refine
      refine (settles.refineRound_leads manages).bind fun changes last holds => ?_
      obtain ⟨rfl, rfl⟩ := holds
      rw [if_neg fun moved => moved rfl]
      exact .value rfl

end Settled

/-- Inference settles everything with its first passes. -/
theorem Manages.infer_settles (manages : input.Manages table routines limit)
    (uneventful : input.Uneventful table before) (layout : Layout) :
    Leads before (input.infer layout) fun inference after =>
      input.Settles table input.calls.components.flatten before after ∧
        inference.protos = after.protos ∧ inference.failures = after.failures := by
  unfold infer
  refine .reads (.lift fun found _ => ?_)
  have begins : input.Settles table ([] : List (List Nat)).flatten before before :=
    ⟨uneventful, .refl before, fun _ absent => absurd absent List.not_mem_nil⟩
  refine (manages.forM_solveComponent_settles (List.nil_append _).symm begins).bind
    fun _ solved settles => ?_
  have rest : ∀ types : List Ty, Leads solved (do
      input.refine types input.limits.refinementRounds
      let state ← get
      return ⟨state.protos, types, state.failures⟩ : Infer Inference) fun inference after =>
        input.Settles table input.calls.components.flatten before after ∧
          inference.protos = after.protos ∧ inference.failures = after.failures := by
    intro types
    refine (settles.refine_leads manages _).bind fun _ last same => ?_
    subst same
    exact .reads (.value ⟨settles, rfl, rfl⟩)
  cases found with
  | some types => exact rest types
  | none => exact .reads (.lift fun again _ => rest _)

/-- Nothing has happened before inference. -/
theorem uneventful_initialState (input : InferenceInput) (layout : Layout) (table : FlowTable) :
    input.Uneventful table (input.initialState layout table) where
  toSound := Analysis.sound_initialState layout (fun _ => Prototype.isPlain_initial _ rfl)
    (Prototype.isPlain_initial _ rfl)
  unqueued := by
    intro sub _
    show (Array.replicate input.program.subroutineCount 0).getD sub 0 = 0
    rw [Array.getD_eq_getD_getElem?, Array.getElem?_replicate]
    split <;> rfl
  failures := rfl

end InferenceInput

namespace Program

open Passage (Calls)

variable {program : Program} {routines : List (List Passage)} {catalog : ActionCatalog}
  {settings : Settings} {limit : Nat}

/-- Subroutines that print and call are all found without parameters and results.  The first pass is enough
if it may try more paths than there are tests in each of them, and if each call on a cycle has a test. -/
theorem IsMadeOf.converges (made : program.IsMadeOf routines) (knows : Structured.Knows catalog)
    (filled : 0 < routines.length)
    (called : ∀ callee < routines.length, callee ≠ 0 → Calls routines 0 callee)
    (acyclic : ∀ sub passages callee, routines[sub]? = some passages → .call callee ∈ passages →
      ¬Relation.ReflTransGen (Calls routines) callee sub)
    (budget : ∃ later, settings.limits.passBudgets = some limit :: later)
    (few : ∀ passages ∈ routines, passages.countP (·.isGuarded) < limit)
    (room : limit * limit ≤ settings.limits.maxDecisions) :
    ∃ analysis, Analysis.ofProgram program catalog settings = .ok analysis ∧
      analysis.inference.failures = [] ∧ analysis.inference.protos.size = routines.length ∧
        ∀ proto ∈ analysis.inference.protos, proto.status = .done ∧ proto.IsPlain := by
  have counted : 0 < program.subroutineCount := made.subroutineCount ▸ filled
  obtain ⟨live, found, _, _, marks⟩ := Liveness.liveSet_spec program
  have all : FlowTable.AllLive program (Liveness.markedTable program live) :=
    Liveness.allLive_markedTable fun command inside =>
      (marks command).mpr (made.isReachable called inside)
  obtain ⟨analysis, analyzed, -⟩ := Analysis.ofProgram_eq_ok catalog settings counted made.increasing
    made.allLand found (fun _ => trivial) fun calls => InferenceInput.keeps_true _ _
  refine ⟨analysis, analyzed, ?_⟩
  obtain ⟨settled, done, -⟩ := Analysis.settled_of_ofProgram analyzed
  obtain ⟨table, after, flow, built, -, inferred⟩ := Analysis.exists_of_ofProgram analyzed
  obtain ⟨other, again, marked⟩ := Analysis.flowTable_eq_ok made.increasing made.allLand
  obtain rfl : live = other := Except.ok.inj (found.symm.trans again)
  obtain rfl := Except.ok.inj (marked.symm.trans flow)
  have manages : (Analysis.inferenceInput program analysis.calls catalog settings).Manages
      (Liveness.markedTable program live) routines limit :=
    { made, live := all, known := FlowTable.isKnown_markedTable program live, built, knows, acyclic,
      budget, few, room }
  obtain ⟨settles, protos, failures⟩ := manages.infer_settles
    (InferenceInput.uneventful_initialState _ _ _) _ _ _ inferred
  refine ⟨failures.trans settles.uneventful.failures, settled.trans made.subroutineCount,
    fun proto listed => ⟨done proto listed, ?_⟩⟩
  rw [protos] at listed
  obtain ⟨sub, inside, rfl⟩ := Array.mem_iff_getElem.mp listed
  have plain := settles.uneventful.fits sub
  rwa [InferenceState.proto, Array.getD_eq_getD_getElem?, Array.getElem?_eq_getElem inside] at plain

end Program

namespace Passage

/-- A subroutine that prints and then calls all the others. -/
def calling (count : Nat) (greeting : String) : List Passage :=
  .print greeting :: (List.finRange count).map fun callee : Fin count => .call (callee.val + 1)

/-- A subroutine that calls some others, each if a random number is not zero, and then prints. -/
def trying {count : Nat} (text : String) (callees : List (Fin count)) : List Passage :=
  callees.map (fun callee => .guarded (callee.val + 1)) ++ [.print text]

/-- A first subroutine that calls all the others, which call each other and themselves as they like. -/
def callGraph {count : Nat} (greeting : String) (texts : Fin count → String)
    (calls : Fin count → List (Fin count)) : List (List Passage) :=
  calling count greeting :: List.ofFn fun sub => trying (texts sub) (calls sub)

section CallGraph

variable {count sub callee : Nat} {greeting : String} {texts : Fin count → String}
  {calls : Fin count → List (Fin count)} {passages : List Passage}

theorem length_callGraph (greeting : String) (texts : Fin count → String)
    (calls : Fin count → List (Fin count)) :
    (callGraph greeting texts calls).length = count + 1 := by
  rw [callGraph, List.length_cons, List.length_ofFn]

theorem cases_callGraph (found : (callGraph greeting texts calls)[sub]? = some passages) :
    sub = 0 ∧ passages = calling count greeting ∨
      ∃ number : Fin count, passages = trying (texts number) (calls number) := by
  cases sub with
  | zero => exact .inl ⟨rfl, (Option.some.inj found).symm⟩
  | succ sub =>
      rw [callGraph, List.getElem?_cons_succ, List.getElem?_ofFn] at found
      split at found
      · rename_i inside
        exact .inr ⟨⟨sub, inside⟩, (Option.some.inj found).symm⟩
      · cases found

/-- Nobody calls the first subroutine. -/
theorem callee_of_calls (called : Calls (callGraph greeting texts calls) sub callee) :
    0 < callee ∧ callee < count + 1 := by
  obtain ⟨passages, found, passage, listed, called⟩ := called
  rcases cases_callGraph found with ⟨-, rfl⟩ | ⟨number, rfl⟩
  · rw [calling, List.mem_cons, List.mem_map] at listed
    rcases listed with rfl | ⟨other, -, rfl⟩
    · cases called
    · cases called
      exact ⟨Nat.succ_pos _, Nat.succ_lt_succ other.isLt⟩
  · rw [trying, List.mem_append, List.mem_map, List.mem_singleton] at listed
    rcases listed with ⟨other, -, rfl⟩ | rfl
    · cases called
      exact ⟨Nat.succ_pos _, Nat.succ_lt_succ other.isLt⟩
    · cases called

theorem isMadeOf_callGraph (greeting : String) (texts : Fin count → String)
    (calls : Fin count → List (Fin count)) :
    (Program.ofPassages (callGraph greeting texts calls)).IsMadeOf (callGraph greeting texts calls) where
  bodies := rfl
  closed := fun _ _ called => length_callGraph _ _ _ ▸ (callee_of_calls called).2

/-- One subroutine that calls itself. -/
example : (Program.ofPassages (callGraph "main" (fun _ => "body") fun sub : Fin 1 => [sub])).bodies =
    [[⟨13, .constant (.string "main")⟩, ⟨21, .callAction 1 1⟩, ⟨26, .jump .call 8⟩,
        ⟨32, .simple .ret .void⟩],
      [⟨34, .constant (.int 2)⟩, ⟨40, .callAction 0 1⟩, ⟨45, .jump .jumpZero 12⟩,
        ⟨51, .jump .call (-17)⟩, ⟨57, .constant (.string "body")⟩, ⟨65, .callAction 1 1⟩,
        ⟨70, .simple .ret .void⟩]] := rfl

theorem calls_callGraph (inside : callee < count + 1) (other : callee ≠ 0) :
    Calls (callGraph greeting texts calls) 0 callee := by
  obtain ⟨callee, rfl⟩ := Nat.exists_eq_succ_of_ne_zero other
  have listed := List.mem_finRange (⟨callee, Nat.lt_of_succ_lt_succ inside⟩ : Fin count)
  exact ⟨_, rfl, _, List.mem_cons_of_mem _ (List.mem_map_of_mem listed), rfl⟩

/-- Only the first subroutine calls without a test, and it is not called. -/
theorem acyclic_callGraph (found : (callGraph greeting texts calls)[sub]? = some passages)
    (straight : .call callee ∈ passages) :
    ¬Relation.ReflTransGen (Calls (callGraph greeting texts calls)) callee sub := by
  intro back
  rcases cases_callGraph found with ⟨rfl, rfl⟩ | ⟨number, rfl⟩
  · rcases Relation.ReflTransGen.cases_tail back with rfl | ⟨last, -, called⟩
    · exact absurd (callee_of_calls ⟨_, found, _, straight, rfl⟩).1 (Nat.lt_irrefl 0)
    · exact absurd (callee_of_calls called).1 (Nat.lt_irrefl 0)
  · simp [trying] at straight

theorem countP_callGraph {most : Nat} (few : ∀ sub, (calls sub).length ≤ most)
    (listed : passages ∈ callGraph greeting texts calls) :
    passages.countP (·.isGuarded) ≤ most := by
  obtain ⟨sub, inside, rfl⟩ := List.mem_iff_getElem.mp listed
  rcases cases_callGraph (List.getElem?_eq_getElem inside) with ⟨-, same⟩ | ⟨number, same⟩
  · rw [same, List.countP_eq_zero.mpr (by simp [calling, isGuarded])]
    exact Nat.zero_le _
  · rw [same, trying, List.countP_append, List.countP_map]
    exact List.countP_le_length.trans (few number)

end CallGraph
end Passage

namespace Analysis

/-- Call graphs converge however their subroutines call each other and themselves: if each of them makes
at most nine calls, then the default settings find for each that it has no parameters and no result, give
up none and guess none. -/
theorem callGraph_converges (count : Nat) (greeting : String) (texts : Fin count → String)
    (calls : Fin count → List (Fin count)) (few : ∀ sub, (calls sub).length ≤ 9)
    (catalog : ActionCatalog) (knows : Structured.Knows catalog) :
    ∃ analysis, ofProgram (.ofPassages (Passage.callGraph greeting texts calls)) catalog {} =
        .ok analysis ∧
      analysis.inference.failures = [] ∧ analysis.inference.fallbackCount = 0 ∧
      analysis.inference.protos.size = count + 1 ∧
      ∀ proto ∈ analysis.inference.protos,
        proto.status = .done ∧ proto.params = [] ∧ proto.returnType = .void := by
  have made := Passage.isMadeOf_callGraph greeting texts calls
  have length := Passage.length_callGraph greeting texts calls
  have budget : ∃ later, ({} : Settings).limits.passBudgets = some 10 :: later := ⟨_, rfl⟩
  obtain ⟨analysis, analyzed, failures, counted, plain⟩ := made.converges knows (by omega)
    (fun callee inside other => Passage.calls_callGraph (length ▸ inside) other)
    (fun sub passages callee found straight => Passage.acyclic_callGraph found straight) budget
    (fun passages listed => Nat.lt_succ_of_le (Passage.countP_callGraph few listed)) (by decide)
  refine ⟨analysis, analyzed, failures, ?_, counted.trans length, fun proto listed => ?_⟩
  · rw [Inference.fallbackCount, Array.countP_eq_zero]
    intro proto listed
    rw [(plain proto listed).2.fallback]
    exact Bool.false_ne_true
  · obtain ⟨done, plain⟩ := plain proto listed
    exact ⟨done, Prototype.params_eq_nil plain.slots, plain.returnType⟩

/-- Three subroutines that each call the next one and themselves. -/
theorem callGraph_converges_three :
    let catalog : ActionCatalog :=
      ⟨[(0, .plain "Random" .int [.int]), (1, .plain "PrintString" .void [.string])]⟩
    let calls : Fin 3 → List (Fin 3) := fun sub => [sub + 1, sub]
    (∀ sub, (calls sub).length ≤ 9) ∧ Structured.Knows catalog ∧
      ∃ analysis, ofProgram (.ofPassages (Passage.callGraph "main" (fun _ => "body") calls)) catalog {} =
          .ok analysis ∧
        analysis.inference.failures = [] ∧ analysis.inference.fallbackCount = 0 ∧
        analysis.inference.protos.size = 4 ∧
        ∀ proto ∈ analysis.inference.protos,
          proto.status = .done ∧ proto.params = [] ∧ proto.returnType = .void := by
  intro catalog calls
  have few : ∀ sub, (calls sub).length ≤ 9 := by decide
  have knows : Structured.Knows catalog := ⟨rfl, rfl⟩
  exact ⟨few, knows, callGraph_converges 3 "main" (fun _ => "body") calls few catalog knows⟩

end Analysis
end NwScript
