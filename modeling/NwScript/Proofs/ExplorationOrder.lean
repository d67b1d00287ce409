import Mathlib.Logic.Relation
import NwScript.Proofs.AnalysisOutcome
import NwScript.Proofs.InferenceSteps
import NwScript.Proofs.RecordedInference

/-!
# Callees come first

Components are solved in an order in which edges lead back, and solving one leaves none of its members
without a prototype.  The call targets that walks read are edges of the call graph.  So a walk that waits
for a prototype waits for that of a member of its own component.
-/

namespace NwScript

namespace Digraph

variable {ε : Type} {graph larger : Digraph ε} {source target : Nat} {label : ε}

/-- An edge out of a component leads to an earlier one. -/
theorem IsComponentOrder.mem_earlier {components : List (List Nat)}
    (order : graph.IsComponentOrder components) (proper : graph.IsProper)
    {earlier later : List (List Nat)} {component : List Nat}
    (split : components = earlier ++ component :: later) (listed : source ∈ component)
    (edge : graph.Edge source target) : target ∈ component ∨ target ∈ earlier.flatten := by
  have node : target ∈ components.flatten :=
    order.partition.mem_iff.mpr (List.mem_range.mpr (proper source target edge))
  obtain ⟨other, known, inside⟩ := List.mem_flatten.mp node
  obtain ⟨place, bound, rfl⟩ := List.mem_iff_getElem.mp known
  have here : earlier.length < components.length := by
    rw [split, List.length_append, List.length_cons]
    omega
  have same : components[earlier.length] = component := by simp [split]
  by_cases apart : earlier.length = place
  · subst apart
    exact .inl (same ▸ inside)
  · have before : place < earlier.length :=
      order.ordered here bound apart source (same.symm ▸ listed) target inside edge
    refine .inr (List.mem_flatten.mpr ⟨components[place], ?_, inside⟩)
    have found : components[place] = earlier[place] := by simp [split, before]
    rw [found]
    exact List.getElem_mem before

end Digraph

namespace CallGraph

variable {program : Program} {table : FlowTable} {calls : CallGraph} {command callee : Nat}

/-- Calls that are noted at instructions are edges. -/
def IsLinked (program : Program) (calls : Digraph Nat × Array (Option Nat)) : Prop :=
  ∀ (command callee : Nat), calls.2[command]? = some (some callee) →
    calls.1.Edge (program.owner command) callee

theorem IsLinked.addCall {before after : Digraph Nat × Array (Option Nat)}
    (linked : IsLinked program before) (added : addCall program table before command = .ok after) :
    IsLinked program after := by
  rcases addCall_cases added with ⟨-, rfl⟩ | ⟨callee, graph, -, grown, rfl⟩
  · exact linked
  · intro other target noted
    rw [Array.getElem?_setIfInBounds] at noted
    split at noted
    · rename_i here
      subst here
      split at noted
      · cases noted
        exact (Digraph.edge_addEdge_iff grown).mpr (.inr ⟨rfl, rfl⟩)
      · cases noted
    · exact (Digraph.edge_addEdge_iff grown).mpr (.inl (linked other target noted))

/-- A call target that walks read is an edge. -/
theorem edge_of_target? (built : build program table = .ok calls)
    (target : calls.target? command = some callee) :
    calls.graph.Edge (program.owner command) callee := by
  have blank : IsLinked program
      (.discrete program.subroutineCount, Array.replicate program.commandCount none) := by
    intro command callee noted
    rw [Array.getElem?_replicate] at noted
    split at noted <;> cases noted
  obtain ⟨linked, -⟩ := build_induction built (fun _ => IsLinked program) blank
    fun _ _ _ _ linked added => linked.addCall added
  exact linked command callee (Option.join_eq_some_iff.mp target)

end CallGraph

namespace TypeTrace

variable {trace next : TypeTrace} {context : TypingContext} {command callee : Nat}

/-- A call waits for its target, which is the subroutine itself or has no prototype. -/
theorem target_of_stepCall
    (stepped : trace.stepCall context command = (.blocked callee, next)) :
    context.calls.target? command = some callee ∧ ∃ proto, context.protos[callee]? = some proto ∧
      (callee = context.sub ∨ proto.status ≠ .done) := by
  unfold stepCall at stepped
  split at stepped
  · cases stepped
  · rename_i target called
    split at stepped
    · cases stepped
    · rename_i proto known
      split at stepped
      · rename_i waits
        cases stepped
        refine ⟨called, proto, known, waits.imp_right fun unknown => ?_⟩
        simpa [Prototype.isPrototyped] using unknown
      · cases stepped

/-- Only calls wait. -/
theorem target_of_execute {globalsOnly : Bool}
    (executed : trace.execute context globalsOnly command = .ok (.blocked callee, next)) :
    context.calls.target? command = some callee ∧ ∃ proto, context.protos[callee]? = some proto ∧
      (callee = context.sub ∨ proto.status ≠ .done) := by
  have proceeds : ∀ (made : Option TypeTrace) {other : Flow × TypeTrace},
      trace.proceed made = other → other.1 ≠ .blocked callee := by
    intro made other same
    rw [← same]
    cases made <;> exact Flow.noConfusion
  unfold execute at executed
  dsimp only at executed
  split at executed
  case h_9 => exact target_of_stepCall (Except.ok.inj executed)
  case h_3 | h_4 | h_5 | h_7 | h_8 =>
    exact absurd rfl (proceeds _ (Except.ok.inj executed))
  case h_10 =>
    cases found : context.table.destination command with
    | error fault =>
        rw [found] at executed
        cases executed
    | ok destination =>
        rw [found] at executed
        have flow := congrArg Prod.fst (Except.ok.inj executed)
        dsimp only at flow
        unfold jumpFlow at flow
        split at flow
        · split at flow <;> cases flow
        · cases flow
  case h_11 | h_12 =>
    cases found : context.table.state command with
    | error fault =>
        rw [found] at executed
        cases executed
    | ok state =>
        simp only [found, bind, Except.bind] at executed
        split at executed <;> cases executed
  case h_14 | h_21 =>
    split at executed
    · exact absurd rfl (proceeds _ (Except.ok.inj executed))
    · cases executed
  case h_6 | h_15 | h_16 => split at executed <;> cases executed
  case h_17 => cases globalsOnly <;> cases executed
  all_goals cases executed

end TypeTrace

namespace TypingContext

variable {context : TypingContext} {callee : Nat}

/-- The walk may wait for the prototype of a subroutine. -/
def WaitsFor (context : TypingContext) (callee : Nat) : Prop :=
  ∃ command, context.program.owner command = context.sub ∧
    context.calls.target? command = some callee ∧
    ∃ proto, context.protos[callee]? = some proto ∧ (callee = context.sub ∨ proto.status ≠ .done)

theorem eq_of_ending {globalsOnly : Bool} {trace : TypeTrace} {flow : Flow}
    (ended : ending globalsOnly trace flow = .blocked callee) : flow = .blocked callee := by
  unfold ending at ended
  split at ended
  · split at ended
    · cases ended
    · split at ended <;> cases ended
  · cases ended
  · exact congrArg Flow.blocked (WalkResult.blocked.inj ended)
  · cases ended

theorem waitsFor_of_walk {globalsOnly : Bool} {queue walked : DecisionQueue}
    (went : context.walk globalsOnly queue = .ok (.blocked callee, walked)) :
    context.WaitsFor callee := by
  rcases exists_ending_of_walk (fun _ _ _ _ _ _ _ => trivial) trivial went with
    failed | ⟨command, trace, flow, next, owned, -, stepped, ended⟩
  · cases failed
  · obtain rfl := eq_of_ending ended.symm
    exact ⟨command, owned, TypeTrace.target_of_execute stepped⟩

/-- An exploration waits for what one of its walks waits for. -/
theorem waitsFor_of_exploreFrom {budget : Option Nat} {cap attempts queued : Nat}
    {waiting : Option Nat} {queue : DecisionQueue} {exploration : Exploration}
    (earlier : ∀ callee, waiting = some callee → context.WaitsFor callee)
    (explored : context.exploreFrom budget cap attempts queued waiting queue = .ok exploration)
    (blocked : exploration.result = .blocked (some callee)) : context.WaitsFor callee := by
  obtain ⟨left, bound⟩ : ∃ left, left = cap - queued := ⟨_, rfl⟩
  induction left using Nat.strong_induction_on generalizing attempts queued waiting queue with
  | _ left induction =>
      rw [exploreFrom] at explored
      cases went : context.walk false queue.rewind with
      | error fault =>
          rw [went] at explored
          cases explored
      | ok pair =>
          obtain ⟨result, walked⟩ := pair
          have later : ∀ callee, waitingOn waiting result = some callee → context.WaitsFor callee := by
            intro callee waits
            cases result with
            | blocked other =>
                cases waits
                exact waitsFor_of_walk went
            | complete outcome => exact earlier callee waits
            | globals types => exact earlier callee waits
            | failed => exact earlier callee waits
          simp only [went, bind, Except.bind] at explored
          split at explored
          · cases explored
            cases blocked
          · split at explored
            · cases explored
              cases blocked
            · split at explored
              · cases explored
                exact later callee (PathResult.blocked.inj blocked)
              · split at explored
                · have less : cap - (queued + max 1 (walked.length - queue.length)) < left := by
                    omega
                  exact induction _ less later explored rfl
                · cases explored
                  exact later callee (PathResult.blocked.inj blocked)

end TypingContext

namespace Visit

variable {input : InferenceInput} {visit : Visit} {callee : Nat}

/-- The subroutines that are being solved together: the component, or in refinement only the one that
is explored. -/
def members (visit : Visit) : List Nat :=
  visit.component.getD [visit.context.sub]

/-- An exploration of inference, before which all callees of other components were settled. -/
structure IsSound (input : InferenceInput) (visit : Visit) : Prop where
  /-- Walks go through the program. -/
  program : visit.context.program = input.program
  /-- Walks read the calls. -/
  calls : visit.context.calls = input.calls
  /-- The exploration gave what is recorded. -/
  explored : visit.context.explore visit.budget input.limits.maxDecisions visit.queued .empty =
    .ok visit.exploration
  /-- A component that is being solved is one of the call graph and holds the subroutine. -/
  listed : ∀ component, visit.component = some component →
    component ∈ input.calls.components ∧ visit.context.sub ∈ component
  /-- Other callees have prototypes. -/
  done : ∀ callee, input.calls.graph.Edge visit.context.sub callee → callee ∉ visit.members →
    ∃ proto, visit.context.protos[callee]? = some proto ∧ proto.status = .done

theorem IsSound.sub_mem (sound : visit.IsSound input) : visit.context.sub ∈ visit.members := by
  unfold members
  cases solved : visit.component with
  | none => exact List.mem_singleton_self _
  | some component => exact (sound.listed component solved).2

section Waiting

variable (targets : ∀ command callee, input.calls.target? command = some callee →
  input.calls.graph.Edge (input.program.owner command) callee)

include targets

/-- Walks wait for callees only. -/
theorem IsSound.edge_of_waitsFor (sound : visit.IsSound input)
    (waits : visit.context.WaitsFor callee) :
    input.calls.graph.Edge visit.context.sub callee := by
  obtain ⟨command, owned, target, _⟩ := waits
  rw [sound.program] at owned
  rw [sound.calls] at target
  exact owned ▸ targets command callee target

/-- Walks wait for members only. -/
theorem IsSound.mem_of_waitsFor (sound : visit.IsSound input)
    (waits : visit.context.WaitsFor callee) : callee ∈ visit.members := by
  have edge := sound.edge_of_waitsFor targets waits
  obtain ⟨command, _, _, proto, known, unknown⟩ := waits
  by_contra other
  obtain ⟨settled, found, status⟩ := sound.done callee edge other
  obtain rfl := Option.some.inj (known.symm.trans found)
  rcases unknown with same | open_still
  · exact other (same ▸ sound.sub_mem)
  · exact open_still status

/-- A walk that waits shows a cycle of calls. -/
theorem IsSound.exists_cycle (sound : visit.IsSound input)
    (order : input.calls.graph.IsComponentOrder input.calls.components)
    (proper : input.calls.graph.IsProper) (waits : visit.context.WaitsFor callee) :
    Relation.TransGen input.calls.graph.Edge visit.context.sub visit.context.sub := by
  have edge := sound.edge_of_waitsFor targets waits
  have member := sound.mem_of_waitsFor targets waits
  unfold members at member
  cases solved : visit.component with
  | none =>
      rw [solved] at member
      rw [List.mem_singleton.mp member] at edge
      exact .single edge
  | some component =>
      rw [solved] at member
      obtain ⟨known, listed⟩ := sound.listed component solved
      have inside : visit.context.sub < input.calls.graph.nodeCount :=
        List.mem_range.mp (order.partition.mem_iff.mp (List.mem_flatten.mpr ⟨_, known, listed⟩))
      obtain ⟨_, back⟩ := (order.connected _ inside _ (proper _ _ edge)).mp
        ⟨component, known, listed, member⟩
      exact .head' edge back

end Waiting

end Visit

namespace InferenceState

theorem exists_of_done {state : InferenceState} {sub : Nat}
    (known : (state.proto sub).status = .done) :
    ∃ proto, state.protos[sub]? = some proto ∧ proto.status = .done := by
  rw [InferenceState.proto, Array.getD_eq_getD_getElem?] at known
  cases found : state.protos[sub]? with
  | none =>
      rw [found] at known
      cases known
  | some proto =>
      rw [found] at known
      exact ⟨proto, rfl, known⟩

end InferenceState

namespace InferenceInput

open Recorded (Erases)

variable {α β : Type} {input : InferenceInput} {globals : List Ty} {settled later last : List Nat}

theorem run_exploreRecorded (component : Option (List Nat)) (budget : Option Nat) (queued sub : Nat)
    (log : List Visit) (state : InferenceState) :
    ((input.exploreRecorded component globals budget queued sub).run log).run state =
      ((input.context state globals sub).explore budget input.limits.maxDecisions queued .empty).map
        fun exploration => (((exploration.result, exploration.queued), log ++
            [⟨component, input.context state globals sub, budget, queued, exploration⟩]),
          state.setProto sub { state.proto sub with decisions := exploration.queue }) := by
  unfold exploreRecorded
  show StateT.run (StateT.run (((liftM (liftM ((input.context state globals sub).explore budget
    input.limits.maxDecisions queued .empty) : Infer Exploration) : Recorded Exploration) >>=
    fun exploration => (do
      record ⟨component, input.context state globals sub, budget, queued, exploration⟩
      (set (state.setProto sub { state.proto sub with decisions := exploration.queue }) : Infer Unit)
      return (exploration.result, exploration.queued) : Recorded (PathResult × Nat)))) log) state = _
  cases (input.context state globals sub).explore budget input.limits.maxDecisions queued .empty <;>
    rfl

/-- A recorded step that begins in a state ends as some property says, and all the explorations that are
then recorded came after their callees. -/
def Records (input : InferenceInput) (post : InferenceState → Prop) (log : List Visit)
    (before : InferenceState) (action : Recorded α) : Prop :=
  ∀ value added after, (action.run log).run before = .ok ((value, added), after) →
    post after ∧ ∀ visit ∈ added, visit.IsSound input

variable {post middle : InferenceState → Prop} {log : List Visit} {before : InferenceState}

theorem Records.value {value : α} (holds : post before) (sound : ∀ visit ∈ log, visit.IsSound input) :
    input.Records post log before (pure value) := by
  intro result added after ran
  cases ran
  exact ⟨holds, sound⟩

theorem Records.bind {action : Recorded α} {next : α → Recorded β}
    (first : input.Records middle log before action)
    (second : ∀ value added between, middle between → (∀ visit ∈ added, visit.IsSound input) →
      input.Records post added between (next value)) :
    input.Records post log before (action >>= next) := by
  intro result added after ran
  rw [StateT.run_bind, StateT.run_bind] at ran
  cases gone : (action.run log).run before with
  | error fault =>
      rw [gone] at ran
      cases ran
  | ok pair =>
      obtain ⟨⟨value, between⟩, reached⟩ := pair
      rw [gone] at ran
      obtain ⟨holds, recorded⟩ := first value between reached gone
      exact second value between reached holds recorded result added after ran

theorem Records.reads {next : InferenceState → Recorded α}
    (records : input.Records post log before (next before)) :
    input.Records post log before (liftM (get : Infer InferenceState) >>= next) :=
  fun value added after ran => records value added after ran

theorem Records.changes {change : InferenceState → InferenceState} {next : PUnit → Recorded α}
    (records : input.Records post log (change before) (next ())) :
    input.Records post log before (liftM (modify change : Infer PUnit) >>= next) :=
  fun value added after ran => records value added after ran

/-- What is lifted records nothing. -/
theorem eq_of_run_lift {plain : Infer α} {log added : List Visit} {before after : InferenceState}
    {value : α} (ran : ((liftM plain : Recorded α).run log).run before = .ok ((value, added), after)) :
    plain.run before = .ok (value, after) ∧ added = log := by
  change (plain >>= fun value => pure (value, log) : Infer (α × List Visit)).run before = _ at ran
  rw [StateT.run_bind] at ran
  cases gone : plain.run before with
  | error fault =>
      rw [gone] at ran
      cases ran
  | ok pair =>
      rw [gone] at ran
      cases ran
      exact ⟨rfl, rfl⟩

theorem Records.lift {plain : Infer α}
    (leads : Infer.Leads before plain fun _ after => post after)
    (sound : ∀ visit ∈ log, visit.IsSound input) :
    input.Records post log before (liftM plain : Recorded α) := by
  intro value added after ran
  obtain ⟨went, rfl⟩ := eq_of_run_lift ran
  exact ⟨leads value after went, sound⟩

/-- A recorded step takes the inference from some settled subroutines to others. -/
def Takes (input : InferenceInput) (settled later : List Nat) (action : Recorded α) : Prop :=
  ∀ log before, input.Settling settled before → (∀ visit ∈ log, visit.IsSound input) →
    input.Records (input.Settling later) log before action

theorem Takes.value (value : α) : input.Takes settled settled (pure value) :=
  fun _ _ settling sound => .value settling sound

theorem Takes.bind {action : Recorded α} {next : α → Recorded β}
    (first : input.Takes settled later action)
    (second : ∀ value, input.Takes later last (next value)) :
    input.Takes settled last (action >>= next) :=
  fun log before settling sound => (first log before settling sound).bind
    fun value added between reached recorded => second value added between reached recorded

theorem Takes.lift {plain : Infer α} (leads : ∀ before, input.Settling settled before →
      Infer.Leads before plain fun _ after => input.Settling later after) :
    input.Takes settled later (liftM plain : Recorded α) :=
  fun _ before settling sound => .lift (leads before settling) sound

theorem Takes.reads : input.Takes settled settled (liftM (get : Infer InferenceState)) :=
  .lift fun before settling value after ran => by
    cases ran
    exact settling

theorem Takes.branch {condition : Prop} [Decidable condition] {first second : Recorded α}
    (yes : input.Takes settled later first) (no : input.Takes settled later second) :
    input.Takes settled later (if condition then first else second) := by
  split
  · exact yes
  · exact no

theorem Takes.foldlM {items : List β} {step : α → β → Recorded α}
    (each : ∀ value, ∀ item ∈ items, input.Takes settled settled (step value item)) (start : α) :
    input.Takes settled settled (items.foldlM step start) := by
  induction items generalizing start with
  | nil => exact .value start
  | cons item items induction =>
      rw [List.foldlM_cons]
      exact (each start item List.mem_cons_self).bind fun value =>
        induction (fun value other listed => each value other (List.mem_cons_of_mem _ listed)) value

/-- An exploration is recorded; it settles nothing. -/
theorem exploreRecorded_takes {component : Option (List Nat)} {budget : Option Nat}
    {queued sub : Nat}
    (members : ∀ component', component = some component' →
      component' ∈ input.calls.components ∧ sub ∈ component')
    (edges : ∀ callee, input.calls.graph.Edge sub callee → callee ∉ component.getD [sub] →
      callee ∈ settled) :
    input.Takes settled settled
      (input.exploreRecorded component globals budget queued sub) := by
  intro log before settling sound value added after ran
  have kept : input.Settling settled after := settling.follows
    (explore_leads budget queued value after
      ((input.exploreRecorded_erases globals component budget queued sub).run ran))
  refine ⟨kept, ?_⟩
  rw [run_exploreRecorded] at ran
  cases explored : (input.context before globals sub).explore budget input.limits.maxDecisions queued
      .empty with
  | error fault =>
      rw [explored] at ran
      cases ran
  | ok exploration =>
      rw [explored] at ran
      cases ran
      intro visit listed
      rcases List.mem_append.mp listed with old | new
      · exact sound visit old
      · obtain rfl := List.mem_singleton.mp new
        exact ⟨rfl, rfl, explored, members, fun callee edge outside =>
          InferenceState.exists_of_done (settling.done callee (edges callee edge outside))⟩

/-- A subroutine that is open is not among the settled ones. -/
theorem Settling.begun {before : InferenceState} {sub : Nat} (settling : input.Settling settled before)
    (opened : before.isOpen sub = true) :
    input.Settling settled
      (before.setProto sub { before.proto sub with status := .inProgress }) :=
  settling.follows (.setProto before (.ofOpen ((before.isOpen_iff sub).mp opened) _))

section Component

variable {component : List Nat} (member : component ∈ input.calls.components)
  (edges : ∀ sub ∈ component, ∀ callee, input.calls.graph.Edge sub callee →
    callee ∈ component ∨ callee ∈ settled)
  (inside : ∀ sub ∈ component, sub < input.program.subroutineCount)

include member edges inside

theorem attemptRecorded_takes (budget : Option Nat) {sub : Nat} (listed : sub ∈ component) :
    input.Takes settled settled (input.attemptRecorded component globals budget sub) := by
  intro log before settling sound
  have counted : sub < before.protos.size := settling.count ▸ inside sub listed
  have explored : ∀ queued, input.Takes settled settled
      (input.exploreRecorded (some component) globals budget queued sub) := by
    intro queued
    refine exploreRecorded_takes (fun other same => ?_) fun callee edge outside => ?_
    · cases same
      exact ⟨member, listed⟩
    · exact (edges sub listed callee edge).resolve_left outside
  have whole : ∀ value added after,
      ((input.attemptRecorded component globals budget sub).run log).run before =
        .ok ((value, added), after) → input.Settling settled after :=
    fun value added after ran => settling.attempted (attempt_leads budget counted value after
      ((input.attemptRecorded_erases globals component budget sub).run ran))
  have always : ∀ {α : Type} {plain : Infer α} {state : InferenceState},
      Infer.Leads state plain fun _ _ => True := fun _ _ _ => trivial
  have recorded : input.Records (fun _ => True) log before
      (input.attemptRecorded component globals budget sub) := by
    unfold attemptRecorded
    refine .reads ?_
    split
    · rename_i opened
      refine .changes (.reads ((explored _ log _ (settling.begun opened) sound).bind
        fun answer added between _ recorded => ?_))
      refine (Records.lift always recorded).bind fun _ added between _ recorded => ?_
      cases answer.1 with
      | found outcome =>
          exact (Records.lift always recorded).bind fun _ _ _ _ recorded => .value trivial recorded
      | blocked callee => exact .value trivial recorded
      | limitExceeded =>
          exact (Records.lift always recorded).bind fun _ _ _ _ recorded => .value trivial recorded
    · exact .value trivial sound
  exact fun value added after ran => ⟨whole value added after ran, (recorded value added after ran).2⟩

theorem attemptAllRecorded_takes (budget : Option Nat) :
    input.Takes settled settled (input.attemptAllRecorded globals budget component) :=
  .foldlM (fun _ _ listed =>
    (attemptRecorded_takes member edges inside budget listed).bind fun _ => .value _) false

theorem passRecorded_takes (budget : Option Nat) (rounds : Nat) :
    input.Takes settled settled (input.passRecorded globals budget component rounds) := by
  induction rounds with
  | zero => exact .value ()
  | succ rounds induction =>
      unfold passRecorded
      exact (attemptAllRecorded_takes member edges inside budget).bind fun progress =>
        .branch induction (.value ())

theorem passesRecorded_takes (budgets : List (Option Nat)) :
    input.Takes settled settled (input.passesRecorded globals component budgets) := by
  induction budgets with
  | nil => exact .value ()
  | cons budget budgets induction =>
      unfold passesRecorded
      exact Takes.reads.bind fun state => .branch
        ((passRecorded_takes member edges inside budget _).bind fun _ => induction) (.value ())

/-- Solving a component settles its members. -/
theorem solveComponentRecorded_takes :
    input.Takes settled (component ++ settled) (input.solveComponentRecorded globals component) :=
  (passesRecorded_takes member edges inside _).bind fun _ =>
    .lift fun _ settling => forM_guess_leads settling inside

end Component

section Components

variable (order : input.calls.graph.IsComponentOrder input.calls.components)
  (proper : input.calls.graph.IsProper)
  (counted : input.calls.graph.nodeCount = input.program.subroutineCount)

include order proper

theorem refineOneRecorded_takes (sub : Nat) :
    input.Takes input.calls.components.flatten input.calls.components.flatten
      (input.refineOneRecorded globals sub) := by
  unfold refineOneRecorded
  refine Takes.reads.bind fun state => .branch ?_ (.value 0)
  have explored : input.Takes input.calls.components.flatten input.calls.components.flatten
      (input.exploreRecorded none globals input.limits.refinementBudget 0 sub) := by
    refine exploreRecorded_takes (fun component solved => ?_) fun callee edge _ => ?_
    · cases solved
    · exact order.partition.mem_iff.mpr (List.mem_range.mpr (proper sub callee edge))
  refine explored.bind fun answer => ?_
  cases answer.1 with
  | found outcome =>
      exact .lift fun before settling => (merge_leads outcome).weaken fun _ after follows =>
        settling.follows follows
  | blocked callee => exact .value 0
  | limitExceeded => exact .value 0

theorem refineRecorded_takes (rounds : Nat) :
    input.Takes input.calls.components.flatten input.calls.components.flatten
      (input.refineRecorded globals rounds) := by
  induction rounds with
  | zero => exact .value ()
  | succ rounds induction =>
      unfold refineRecorded refineRoundRecorded
      refine Takes.bind ?_ fun changes => .branch induction (.value ())
      refine Takes.foldlM (fun changes sub _ => ?_) 0
      exact (refineOneRecorded_takes order proper sub).bind fun more => .value (changes + more)

include counted

/-- Components are solved in an order in which edges lead back. -/
theorem forM_solveComponentRecorded_takes {earlier components : List (List Nat)}
    (split : input.calls.components = earlier ++ components) :
    input.Takes earlier.flatten input.calls.components.flatten
      (components.forM (input.solveComponentRecorded globals)) := by
  induction components generalizing earlier with
  | nil =>
      rw [split, List.append_nil]
      exact .value ()
  | cons component components induction =>
      have member : component ∈ input.calls.components := by
        rw [split]
        exact List.mem_append_right _ List.mem_cons_self
      have inside : ∀ sub ∈ component, sub < input.program.subroutineCount := by
        intro sub listed
        have node : sub ∈ input.calls.components.flatten := List.mem_flatten.mpr ⟨_, member, listed⟩
        exact counted ▸ List.mem_range.mp (order.partition.mem_iff.mp node)
      have next : input.calls.components = earlier ++ [component] ++ components := by
        rw [split, List.append_assoc, List.singleton_append]
      refine Takes.bind (solveComponentRecorded_takes member
        (fun sub listed callee edge => order.mem_earlier proper split listed edge) inside)
        fun _ log before settling sound => ?_
      exact induction next log before (settling.mono (by simp)) sound

/-- Inference explores after all callees of other components are settled. -/
theorem inferRecorded_takes (layout : Layout) :
    input.Takes [] input.calls.components.flatten (input.inferRecorded layout) := by
  have asks : ∀ {settled : List Nat} {state : InferenceState},
      input.Takes settled settled (liftM (liftM (input.findGlobals layout state) :
        Infer (Option (List Ty))) : Recorded (Option (List Ty))) := by
    intro settled state
    refine .lift fun before settling value after ran => ?_
    cases found : input.findGlobals layout state with
    | error fault =>
        rw [found] at ran
        cases ran
    | ok types =>
        rw [found] at ran
        cases ran
        exact settling
  unfold inferRecorded
  refine Takes.reads.bind fun state => asks.bind fun before =>
    (forM_solveComponentRecorded_takes order proper counted
      (List.nil_append _).symm).bind fun _ => ?_
  have rest : ∀ globals, input.Takes input.calls.components.flatten
      input.calls.components.flatten (do
        input.refineRecorded globals input.limits.refinementRounds
        let state ← (get : Infer InferenceState)
        return ⟨state.protos, globals, state.failures⟩ : Recorded Inference) :=
    fun globals => (refineRecorded_takes order proper _).bind fun _ =>
      Takes.reads.bind fun _ => .value _
  cases before with
  | some globals => exact rest globals
  | none => exact Takes.reads.bind fun _ => asks.bind fun again => rest _

end Components

end InferenceInput

namespace CallGraph

theorem edge_of_mem_callees {calls : CallGraph} {caller callee : Nat} (listed : callee ∈ calls.callees caller) :
    calls.graph.Edge caller callee := by
  have kept := (List.mem_filter.mp listed).2
  exact List.contains_iff_mem.mp kept

end CallGraph

namespace Analysis

variable {program : Program} {catalog : ActionCatalog} {settings : Settings} {analysis : Analysis}

/-- The call graph of an analysis has an edge for each resolved call, and its components are in the
order of the search. -/
theorem calls_of_ofProgram (done : ofProgram program catalog settings = .ok analysis) :
    analysis.calls.graph.nodeCount = program.subroutineCount ∧ analysis.calls.graph.IsProper ∧
      analysis.calls.graph.IsComponentOrder analysis.calls.components ∧
      ∀ command callee, analysis.calls.target? command = some callee →
        analysis.calls.graph.Edge (program.owner command) callee := by
  obtain ⟨table, _, flow, built, _⟩ := exists_of_ofProgram done
  obtain ⟨counted, proper, components⟩ :=
    CallGraph.graph_of_build built
  exact ⟨counted, proper, components.symm ▸ Digraph.isComponentOrder_components proper,
    fun command callee target => CallGraph.edge_of_target? built target⟩

/-- Callees come first.  Inference with a record of its explorations is the inference, and when it
explores a subroutine of a component all callees outside the component have prototypes.  So walks, and
explorations, wait for members of the component only; in refinement they wait for the subroutine itself
at most; and without cycles of calls nothing ever waits. -/
theorem explorations_follow_callees (done : ofProgram program catalog settings = .ok analysis) :
    let input := inferenceInput program analysis.calls catalog settings
    (∀ log, (·.1) <$> (input.inferRecorded analysis.layout).run log =
      input.infer analysis.layout) ∧
    ∃ table visits after, flowTable program = .ok table ∧
      ((input.inferRecorded analysis.layout).run []).run
        (input.initialState analysis.layout table) = .ok ((analysis.inference, visits), after) ∧
      ∀ visit ∈ visits,
        visit.context.explore visit.budget settings.limits.maxDecisions visit.queued .empty =
          .ok visit.exploration ∧
        (∀ component, visit.component = some component →
          component ∈ analysis.calls.components ∧ visit.context.sub ∈ component) ∧
        (∀ callee ∈ analysis.calls.callees visit.context.sub, callee ∉ visit.members →
          ∃ proto, visit.context.protos[callee]? = some proto ∧ proto.status = .done) ∧
        (∀ queue walked callee, visit.context.walk false queue = .ok (.blocked callee, walked) →
          callee ∈ visit.members) ∧
        (∀ callee, visit.exploration.result = .blocked (some callee) → callee ∈ visit.members) ∧
        ((∀ sub, ¬Relation.TransGen analysis.calls.graph.Edge sub sub) →
          (∀ queue walked callee,
            visit.context.walk false queue ≠ .ok (.blocked callee, walked)) ∧
          ∀ callee, visit.exploration.result ≠ .blocked (some callee)) := by
  intro input
  obtain ⟨table, after, flow, _, _, ran⟩ := exists_of_ofProgram done
  have erases := input.inferRecorded_erases analysis.layout
  refine ⟨erases, table, ?_⟩
  obtain ⟨visits, recorded⟩ := erases.exists_run [] ran
  refine ⟨visits, after, flow, recorded, fun visit listed => ?_⟩
  obtain ⟨counted, proper, order, targets⟩ := calls_of_ofProgram done
  obtain ⟨_, sounds⟩ := InferenceInput.inferRecorded_takes order proper counted
    analysis.layout [] _ (settling_initialState input analysis.layout table)
    (fun _ absent => absurd absent List.not_mem_nil) _ _ _ recorded
  have sound := sounds visit listed
  have walked : ∀ callee, visit.context.WaitsFor callee → callee ∈ visit.members :=
    fun callee => sound.mem_of_waitsFor targets
  have explored : ∀ callee, visit.exploration.result = .blocked (some callee) →
      visit.context.WaitsFor callee :=
    fun callee => TypingContext.waitsFor_of_exploreFrom (fun _ absent => by cases absent)
      sound.explored
  refine ⟨sound.explored, sound.listed,
    fun callee called => sound.done callee (CallGraph.edge_of_mem_callees called),
    fun queue rest callee went => walked callee (TypingContext.waitsFor_of_walk went),
    fun callee blocked => walked callee (explored callee blocked), fun acyclic => ?_⟩
  have never : ∀ callee, ¬visit.context.WaitsFor callee :=
    fun callee waits => acyclic _ (sound.exists_cycle targets order proper waits)
  exact ⟨fun queue rest callee went => never callee (TypingContext.waitsFor_of_walk went),
    fun callee blocked => never callee (explored callee blocked)⟩

/-- A subroutine that calls another one. -/
def calling : Program :=
  .ofNonempty
    [[⟨13, .jump .call 8⟩, ⟨19, .simple .ret .void⟩], [⟨21, .simple .ret .void⟩]] (by simp)

/-- Nothing waits when its prototypes are inferred. -/
theorem explorations_follow_callees_calling : ∃ analysis table visits after,
    ofProgram calling .empty {} = .ok analysis ∧
    (((inferenceInput calling analysis.calls .empty {}).inferRecorded analysis.layout).run []).run
      ((inferenceInput calling analysis.calls .empty {}).initialState analysis.layout table) =
        .ok ((analysis.inference, visits), after) ∧
    ∀ visit ∈ visits, ∀ callee, visit.exploration.result ≠ .blocked (some callee) := by
  have placed : calling.IsWellPlaced := by
    have increasing : ∀ command < 2, calling.position command < calling.position (command + 1) := by
      decide
    have land : ∀ command < 3, (Jumps.target? calling command).isSome →
        (Jumps.destination? calling command).isSome := by decide
    exact Program.isWellPlaced_iff.mpr
      ⟨by decide, fun command inside => increasing command (Nat.succ_lt_succ_iff.mp inside), land⟩
  obtain ⟨analysis, done⟩ := (ofProgram_outcome calling .empty {}).1.mpr placed
  obtain ⟨_, table, visits, after, flow, recorded, each⟩ := explorations_follow_callees done
  refine ⟨analysis, table, visits, after, done, recorded, fun visit listed => ?_⟩
  obtain ⟨_, _, _, _, _, never⟩ := each visit listed
  refine (never fun sub cycle => ?_).2
  have edges : ∀ source target, analysis.calls.graph.Edge source target → source < target := by
    obtain ⟨other, _, same, built, _⟩ := exists_of_ofProgram done
    have graph : (CallGraph.build calling (Liveness.markedTable calling #[true, true, true])) =
      .ok ⟨⟨#[[(1, 0)], []], #[[], [(0, 0)]], 1⟩, #[some 1, none, none], _⟩ := rfl
    have marked : flowTable calling = .ok (Liveness.markedTable calling #[true, true, true]) := by
      decide +kernel
    rw [← Except.ok.inj (marked.symm.trans same)] at built
    rw [← Except.ok.inj (graph.symm.trans built)]
    rintro (_ | _ | source) target edge
    · obtain rfl : target = 1 := List.mem_singleton.mp edge
      exact Nat.zero_lt_one
    · cases edge
    · cases edge
  exact absurd (Relation.TransGen.trans_induction_on
    (motive := fun {source target} _ => source < target) cycle (fun {_ _} edge => edges _ _ edge)
    fun _ _ => Nat.lt_trans) (Nat.lt_irrefl sub)

end Analysis
end NwScript
