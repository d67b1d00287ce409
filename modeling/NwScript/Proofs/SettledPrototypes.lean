import NwScript.Proofs.CallTargets
import NwScript.Proofs.PrototypeChanges
import NwScript.Proofs.RefinementRounds

/-!
# Settled prototypes

The marks on typing are right in every state of inference: a marked prototype has no undetermined slot, in
or outside groups, and a result that is fully typed.  So when a subroutine and its callees are marked, a walk
through it tells the callees nothing, and what it shows about the subroutine itself is known.
-/

namespace NwScript

namespace Ty

theorem isKnown_of_isFullyTyped {type : Ty} (typed : type.isFullyTyped = true) :
    type.isKnown = true := by
  cases type with
  | simple code => exact typed
  | aggregate members => rfl

/-- An aggregate is fully typed if its members are known. -/
theorem isFullyTyped_ofMembers (members : List Ty) :
    (ofMembers members).isFullyTyped = members.all isKnown := by
  unfold ofMembers
  split
  · rename_i same
    rw [same]
    rfl
  · rfl

end Ty

namespace Prototype

variable {proto before after : Prototype}

/-- Marks are only where they are due. -/
structure IsHonest (proto : Prototype) : Prop where
  /-- The declared parameters of a marked prototype are fully typed. -/
  params : proto.flags.paramsTyped = true → proto.params.all Ty.isFullyTyped = true
  /-- The result of a marked prototype is fully typed. -/
  result : proto.flags.returnTyped = true → proto.returnType.isFullyTyped = true

theorem isHonest_refreshFlags (proto : Prototype) : proto.refreshFlags.IsHonest :=
  ⟨id, id⟩

theorem Change.isHonest (change : Change before after) (honest : before.IsHonest) :
    after.IsHonest := by
  cases change with
  | status | decisions | fallback => exact ⟨honest.params, honest.result⟩
  | install => exact isHonest_refreshFlags _
  | learn lesson =>
      rcases before.learn_cases lesson with same | ⟨slots, returnType, same⟩
      · exact same.symm ▸ honest
      · exact same.symm ▸ isHonest_refreshFlags _

/-- No change makes a mark wrong. -/
theorem Evolves.isHonest (evolves : before.Evolves after) (honest : before.IsHonest) :
    after.IsHonest :=
  evolves.keeps IsHonest (fun change => change.isHonest) honest

/-- Every slot of fully typed parameters is determined. -/
theorem isKnown_of_params (typed : proto.params.all Ty.isFullyTyped = true) :
    ∀ type ∈ proto.slots, type.isKnown = true := by
  rw [params, paramsFrom_eq_map, List.all_map, List.all_eq_true] at typed
  intro type listed
  rw [← flatten_coveredFrom proto.groups 0 proto.slots] at listed
  obtain ⟨slots, covered, inside⟩ := List.mem_flatten.mp listed
  have declared : (declaredType slots).isFullyTyped = true := typed slots covered
  by_cases several : 1 < slots.length
  · rw [declaredType_of_several several, Ty.isFullyTyped_ofMembers, List.all_reverse] at declared
    exact List.all_eq_true.mp declared type inside
  · obtain ⟨only, rfl⟩ : ∃ only, slots = [only] :=
      List.length_eq_one_iff.mp (by have := List.length_pos_of_mem inside; omega)
    rw [List.mem_singleton] at inside
    exact Ty.isKnown_of_isFullyTyped (inside ▸ declared)

theorem IsHonest.isKnown (honest : proto.IsHonest) (typed : proto.isFullyTyped = true) :
    ∀ type ∈ proto.slots, type.isKnown = true :=
  isKnown_of_params (honest.params (Bool.and_eq_true_iff.mp typed).1)

theorem refineParam_of_known (known : ∀ type ∈ proto.slots, type.isKnown = true) (slot : Nat)
    (type : Ty) : proto.refineParam slot type = (false, proto) := by
  unfold refineParam
  split
  · rename_i current found
    have determined := known current (List.mem_of_getElem? found)
    rw [if_neg (by simp [determined])]
  · rfl

theorem refineReturn_of_typed (typed : proto.returnType.isFullyTyped = true) (type : Ty) :
    proto.refineReturn type = (false, proto) := by
  rw [refineReturn, if_neg (by simp [typed])]

/-- Nothing that a walk shows changes a prototype that is known and no guess. -/
theorem mergeOutcome_of_known (known : ∀ type ∈ proto.slots, type.isKnown = true)
    (typed : proto.returnType.isFullyTyped = true) (sure : proto.flags.fallback = false)
    (outcome : WalkOutcome) : InferenceInput.mergeOutcome proto outcome = (0, proto) := by
  have params : InferenceInput.refineParams proto outcome.slots = (0, proto) := by
    rw [InferenceInput.refineParams_eq_tally]
    exact tally_idle (fun entry : Ty × Nat => refineParam_of_known known entry.2 entry.1) 0
  unfold InferenceInput.mergeOutcome
  rw [if_neg (by simp [sure])]
  split
  · rw [params]
    dsimp only
    rw [refineReturn_of_typed typed]
    rfl
  · rfl

end Prototype

namespace TypeTrace

/-- A call of a prototype whose slots are determined teaches it nothing. -/
theorem refinements_call (trace : TypeTrace) (callee : Nat) {proto : Prototype}
    (known : ∀ type ∈ proto.slots, type.isKnown = true) :
    (trace.call callee proto).refinements = trace.refinements := by
  have passed : ∀ (params : List (Ty × Nat)) (trace : TypeTrace),
      (∀ param ∈ params, param.1.isKnown = true) →
        (params.foldl (passArgument callee) trace).refinements = trace.refinements := by
    intro params
    induction params with
    | nil => exact fun _ _ => rfl
    | cons param params induction =>
        intro trace determined
        obtain ⟨here, others⟩ := List.forall_mem_cons.mp determined
        rw [List.foldl_cons, induction _ others]
        unfold passArgument
        dsimp only
        rw [if_pos here]
        exact congrArg Prod.snd (records_note _ _ _)
  have all : ∀ param ∈ proto.slots.zipIdx, param.1.isKnown = true := fun param listed =>
    known param.1 (List.fst_mem_of_mem_zipIdx listed)
  unfold call receiveResult
  dsimp only
  split <;> exact passed _ trace all

end TypeTrace

namespace TypingContext

variable {context : TypingContext}

/-- Nothing is left to learn about the slots of the callees of the subroutine. -/
def CalleesKnown (context : TypingContext) : Prop :=
  ∀ (command callee : Nat) (proto : Prototype), context.program.owner command = context.sub →
    context.calls.target? command = some callee → context.protos[callee]? = some proto →
      ∀ type ∈ proto.slots, type.isKnown = true

/-- An instruction of the subroutine teaches known callees nothing. -/
theorem refinements_of_step (callees : context.CalleesKnown) {globalsOnly : Bool} {command : Nat}
    {trace next : TypeTrace} {flow : Flow} (owned : context.program.owner command = context.sub)
    (stepped : trace.step context globalsOnly command = .ok (flow, next)) :
    next.refinements = trace.refinements := by
  rcases TypeTrace.records_execute _ stepped with kept | ⟨callee, proto, called, known, rfl⟩
  · exact congrArg Prod.snd kept
  · exact TypeTrace.refinements_call _ callee (callees command callee proto owned called known)

/-- A walk teaches known callees nothing. -/
theorem refinements_of_completes (callees : context.CalleesKnown) {outcome : WalkOutcome}
    (completes : context.Completes outcome) : outcome.refinements = [] := by
  obtain ⟨queue, walked, went⟩ := completes
  rcases exists_ending_of_walk
      (fun command trace flow next owned (none : trace.refinements = []) stepped =>
        (refinements_of_step callees owned stepped).trans none) rfl went with
    failed | ⟨command, trace, flow, next, owned, none, stepped, ended⟩
  · cases failed
  · obtain ⟨-, listed⟩ := records_of_finish? (finish?_of_ending ended.symm)
    rw [listed, refinements_of_step callees owned stepped, none, List.reverse_nil]

end TypingContext

/-- What always holds after a step that always succeeds. -/
theorem Infer.Ensures.leads {α : Type} {invariant : InferenceState → Prop} {action : Infer α}
    {post : α → Prop} (ensures : Ensures invariant action post) {state : InferenceState}
    (begins : invariant state) : Leads state action fun _ after => invariant after := by
  intro value after ran
  obtain ⟨other, changed, again, still, -⟩ := ensures state begins
  cases ran.symm.trans again
  exact still

namespace InferenceInput

open Infer (Leads Mirrors)
open InferenceState (Alike)

variable {input : InferenceInput} {table : FlowTable} {state like : InferenceState}
  {globals : List Ty} {sub : Nat}

/-- Inference keeps the marks right. -/
theorem keeps_isHonest (input : InferenceInput) (table : FlowTable) :
    input.Keeps table Prototype.IsHonest where
  status := fun proto status => (Prototype.Change.status proto status).isHonest
  decisions := fun proto decisions => (Prototype.Change.decisions proto decisions).isHonest
  install := fun proto outcome honest _ =>
    (Prototype.Change.install proto outcome.slots _ _ _).isHonest honest
  merge := fun proto outcome honest _ => (proto.evolves_mergeOutcome outcome).isHonest honest
  refine := fun proto _ refinement honest _ _ =>
    (Prototype.Change.learn proto (.param refinement.slot refinement.type)).isHonest honest
  guess := fun proto _ _ guess honest _ _ =>
    (Prototype.Change.fallback _ true).isHonest
      ((Prototype.Change.install proto (List.replicate guess.slots .invalid) [] .void none).isHonest
        honest)

/-- A state that says the same as a sound one is sound. -/
theorem Sound.of_alike (sound : input.Sound table Prototype.IsHonest state)
    (alike : state.Alike like) : input.Sound table Prototype.IsHonest like where
  flow := sound.flow.trans alike.flow
  count := by
    have sizes := congrArg Array.size alike.protos_map
    rw [Array.size_map, Array.size_map] at sizes
    exact sizes.trans sound.count
  fits := fun sub => by
    have honest : (state.proto sub).forget.IsHonest := ⟨(sound.fits sub).params, (sound.fits sub).result⟩
    rw [← alike.proto sub] at honest
    exact ⟨honest.params, honest.result⟩

/-- What needs no refinement is fully typed and no guess, and its callees are fully typed. -/
theorem settled_of_needsRefinement (settled : input.needsRefinement state sub = false) :
    (state.proto sub).isFullyTyped = true ∧ (state.proto sub).flags.fallback = false ∧
      ∀ callee ∈ input.calls.callees sub, (state.proto callee).isFullyTyped = true := by
  simp only [needsRefinement, Bool.or_eq_false_iff, Bool.not_eq_false', List.any_eq_false,
    Bool.not_eq_true'] at settled
  obtain ⟨⟨typed, sure⟩, callees⟩ := settled
  exact ⟨typed, sure, fun callee listed => by simpa using callees callee listed⟩

/-- Without evidence about callees no change is counted. -/
theorem applyEvidence_counts_none {outcome : WalkOutcome} (none : outcome.refinements = []) :
    Leads state (applyEvidence outcome) fun changes _ => changes = 0 := by
  unfold applyEvidence
  rw [none]
  exact .reads (.lift fun _ _ => .writes (.value rfl))

/-- Nothing that a walk shows changes a known prototype, and without evidence it changes no other. -/
theorem merge_counts_none (honest : (state.proto sub).IsHonest)
    (typed : (state.proto sub).isFullyTyped = true) (sure : (state.proto sub).flags.fallback = false)
    {outcome : WalkOutcome} (none : outcome.refinements = []) :
    Leads state (merge sub outcome) fun changes _ => changes = 0 := by
  have result := honest.result (Bool.and_eq_true_iff.mp typed).2
  unfold merge
  refine .reads ?_
  rw [Prototype.mergeOutcome_of_known (honest.isKnown typed) result sure]
  exact .writes ((applyEvidence_counts_none none).bind fun more _ idle => .value (by rw [idle]))

/-- Steps of inference lead from sound states to sound states. -/
theorem Reaches.sound (known : table.IsKnown input.program) {start : InferenceState}
    (reaches : input.Reaches start state) (sound : input.Sound table Prototype.IsHonest start) :
    input.Sound table Prototype.IsHonest state := by
  have kept := input.keeps_isHonest table
  induction reaches with
  | refl => exact sound
  | tail _ step induction =>
      cases step with
      | attempt ran => exact (attempt_ensures known kept _ _ _).leads induction _ _ ran
      | guess ran => exact (guess_ensures known kept _).leads induction _ _ ran
      | refine ran => exact (refineOne_ensures known kept _ _).leads induction _ _ ran

/-- A round of refinement that skips no subroutine. -/
def refineRoundAnyway (input : InferenceInput) (globals : List Ty) : Infer Nat :=
  input.calls.components.flatten.foldlM
    (fun changes sub => return changes + (← input.refineAnyway globals sub)) 0

/-- Rounds of refinement that skip no subroutine, until one changes nothing. -/
def refineRoundsAnyway (input : InferenceInput) (globals : List Ty) : (rounds : Nat) → Infer Unit
  | 0 => pure ()
  | rounds + 1 => do
      if (← input.refineRoundAnyway globals) ≠ 0 then
        input.refineRoundsAnyway globals rounds

section Settled

variable (known : table.IsKnown input.program)
  (listed : ∀ command callee, input.calls.target? command = some callee →
    callee ∈ input.calls.callees (input.program.owner command))
  (sound : input.Sound table Prototype.IsHonest state)

include listed sound

/-- Walks through a settled subroutine find its callees known. -/
theorem calleesKnown_of_settled (globals : List Ty)
    (settled : input.needsRefinement state sub = false) :
    (input.context state globals sub).CalleesKnown := by
  obtain ⟨-, -, callees⟩ := settled_of_needsRefinement settled
  intro command callee proto owned called found
  have same : state.proto callee = proto := by
    rw [InferenceState.proto, Array.getD_eq_getD_getElem?, show state.protos[callee]? = some proto
      from found, Option.getD_some]
  have member : callee ∈ input.calls.callees sub := by
    rw [← show input.program.owner command = sub from owned]
    exact listed command callee called
  exact same ▸ (sound.fits callee).isKnown (callees callee member)

include known

/-- Exploring a settled subroutine shows nothing about its callees. -/
theorem explore_silent (settled : input.needsRefinement state sub = false) (budget : Option Nat)
    (queued : Nat) : Leads state (input.explore globals budget queued sub) fun answer _ =>
      ∀ outcome, answer.1 = .found outcome → outcome.refinements = [] := by
  have context_known : (input.context state globals sub).table.IsKnown
      (input.context state globals sub).program := known.of_sameFlow sound.flow
  obtain ⟨exploration, explored, completes⟩ := TypingContext.exploreFrom_eq_ok context_known budget
    input.limits.maxDecisions 0 queued none .empty
  unfold explore
  refine .reads (.lift fun other again => .writes (.value fun outcome found => ?_))
  obtain rfl := Except.ok.inj (explored.symm.trans again)
  exact TypingContext.refinements_of_completes
    (calleesKnown_of_settled listed sound globals settled) (completes outcome found)

/-- Refining a settled subroutine anyway counts no change. -/
theorem refineAnyway_counts_none (settled : input.needsRefinement state sub = false) :
    Leads state (input.refineAnyway globals sub) fun changes _ => changes = 0 := by
  have explored : Leads state (input.explore globals input.limits.refinementBudget 0 sub)
      fun answer after => state.Alike after ∧
        ∀ outcome, answer.1 = .found outcome → outcome.refinements = [] := fun answer after ran =>
    ⟨explore_idles _ _ answer after ran, explore_silent known listed sound settled _ _ answer after ran⟩
  unfold refineAnyway
  refine explored.bind fun answer between holds => ?_
  obtain ⟨alike, silent⟩ := holds
  obtain ⟨typed, sure, -⟩ := settled_of_needsRefinement ((needsRefinement_eq alike).trans settled)
  split
  · rename_i outcome found
    exact merge_counts_none ((sound.of_alike alike).fits sub) typed sure (silent outcome found)
  · exact .value rfl

/-- It succeeds and leaves every prototype as it was but for its decisions. -/
theorem refineAnyway_of_settled (globals : List Ty)
    (settled : input.needsRefinement state sub = false) :
    ∃ after, (input.refineAnyway globals sub).run state = .ok (0, after) ∧ state.Alike after := by
  obtain ⟨changes, after, ran, -⟩ :=
    refineAnyway_ensures known (input.keeps_isHonest table) globals sub state sound
  obtain rfl := refineAnyway_counts_none known listed sound settled changes after ran
  exact ⟨after, ran, refineAnyway_idles sub 0 after ran rfl⟩

/-- So refining a subroutine anyway does what refining it does. -/
theorem refineOne_mirrors_anyway (alike : state.Alike like) (sub : Nat) :
    Mirrors state like (input.refineOne globals sub) (input.refineAnyway globals sub) := by
  intro changes after ran
  rw [refineOne_eq_ite] at ran
  change (if input.needsRefinement state sub then input.refineAnyway globals sub else
    return 0 : Infer Nat).run state = _ at ran
  cases settled : input.needsRefinement state sub with
  | true =>
      rw [if_pos settled] at ran
      exact refineAnyway_mirrors alike sub changes after ran
  | false =>
      rw [if_neg (Bool.eq_false_iff.mp settled)] at ran
      cases ran
      obtain ⟨last, again, same⟩ := refineAnyway_of_settled known listed (sound.of_alike alike) globals
        ((needsRefinement_eq alike).trans settled)
      exact ⟨last, again, alike.trans same⟩

theorem refineRound_mirrors_anyway (alike : state.Alike like) :
    Mirrors state like (input.refineRound globals) (input.refineRoundAnyway globals) := by
  have kept := input.keeps_isHonest table
  refine .foldlM (fun sub changes {state like} sound alike => ?_) (fun sub changes {state} sound => ?_)
    sound alike
  · exact (refineOne_mirrors_anyway known listed sound alike sub).bind fun _ _ _ last =>
      .value last rfl
  · exact ((refineOne_ensures known kept globals sub).leads sound).bind fun _ _ still => .value still

/-- Rounds of refinement that skip nothing do what rounds of refinement do. -/
theorem refine_mirrors_anyway (alike : state.Alike like) (rounds : Nat) :
    Mirrors state like (input.refine globals rounds) (input.refineRoundsAnyway globals rounds) := by
  have kept := input.keeps_isHonest table
  induction rounds generalizing state like with
  | zero => exact .value alike rfl
  | succ rounds induction =>
      unfold refine refineRoundsAnyway
      refine (refineRound_mirrors_anyway known listed sound alike).bind_leads
        ((refineRound_ensures known kept globals).leads sound) fun changes after last still same => ?_
      split
      · exact induction still same
      · exact .value same rfl

end Settled

end InferenceInput

namespace Analysis

/-- Skipping settled subroutines loses nothing.  In every state that inference passes through, exploring a
subroutine that needs no refinement and merging what is found succeeds, counts no change, and leaves all
prototypes as they were but for the decisions of their last paths.  So rounds of refinement yield the same
prototypes whether they skip such subroutines or not. -/
theorem skipping_loses_nothing {program : Program} {table : FlowTable} {calls : CallGraph}
    (flow : flowTable program = .ok table) (built : CallGraph.build program table = .ok calls)
    (catalog : ActionCatalog) (settings : Settings) (layout : Layout) :
    let input := inferenceInput program calls catalog settings
    let start := input.initialState layout table
    (∃ inference last, (input.infer layout).run start = .ok (inference, last) ∧
      input.Reaches start last ∧ inference.protos = last.protos) ∧
    ∀ state, input.Reaches start state → ∀ globals,
      (∀ sub, input.needsRefinement state sub = false → ∃ after,
        (input.refineAnyway globals sub).run state = .ok (0, after) ∧
        after.protos.map Prototype.forget = state.protos.map Prototype.forget) ∧
      ∀ rounds, ∃ skipping thorough,
        (input.refine globals rounds).run state = .ok ((), skipping) ∧
        (input.refineRoundsAnyway globals rounds).run state = .ok ((), thorough) ∧
        thorough.protos.map Prototype.forget = skipping.protos.map Prototype.forget := by
  intro input start
  have known := isKnown_of_flowTable flow
  have listed : ∀ command callee, calls.target? command = some callee →
      callee ∈ calls.callees (program.owner command) := fun command callee called =>
    (CallGraph.mem_callees_iff built).mpr ⟨command, rfl, (CallGraph.target?_eq_some_iff built).mp called⟩
  have kept := input.keeps_isHonest table
  have begins : input.Sound table Prototype.IsHonest start := by
    refine sound_initialState layout (fun _ => ?_) ?_
    · exact ⟨Bool.false_ne_true.elim, Bool.false_ne_true.elim⟩
    · exact ⟨Bool.false_ne_true.elim, Bool.false_ne_true.elim⟩
  refine ⟨?_, fun state reaches globals => ?_⟩
  · obtain ⟨inference, last, ran, -⟩ := InferenceInput.infer_eq_ok known kept layout begins
    obtain ⟨reaches, protos⟩ := InferenceInput.infer_reaches layout inference last ran
    exact ⟨inference, last, ran, reaches, protos⟩
  · have sound := reaches.sound known begins
    refine ⟨fun sub settled => ?_, fun rounds => ?_⟩
    · obtain ⟨after, ran, alike⟩ :=
        InferenceInput.refineAnyway_of_settled known listed sound globals settled
      exact ⟨after, ran, alike.protos_map⟩
    · obtain ⟨_, skipping, ran, -⟩ :=
        InferenceInput.refine_ensures known kept globals rounds state sound
      obtain ⟨thorough, again, alike⟩ := InferenceInput.refine_mirrors_anyway known listed sound
        (.refl state) rounds () skipping ran
      exact ⟨skipping, thorough, ran, again, alike.protos_map⟩

/-- A subroutine that calls itself is settled by its first attempt. -/
theorem skipping_loses_nothing_recursing : ∃ settled after,
    (recursingInput.attempt [] (some 10) 0).run recursingStart = .ok (true, settled) ∧
    recursingInput.needsRefinement settled 0 = false ∧
    (recursingInput.refineAnyway [] 0).run settled = .ok (0, after) ∧
    after.protos.map Prototype.forget = settled.protos.map Prototype.forget := by
  obtain ⟨settled, attempted, -, sure, -, typed⟩ := run_attempt_recursing
  have idle : recursingInput.needsRefinement settled 0 = false := by
    have callees : recursingInput.calls.callees 0 = [0] := by decide
    rw [InferenceInput.needsRefinement, callees, List.any_cons, List.any_nil, typed, sure]
    rfl
  obtain ⟨-, each⟩ := skipping_loses_nothing flowTable_recursing build_recursing .empty
    (Settings.withRounds {} 0) ⟨0, none, none, none, 0⟩
  obtain ⟨after, ran, same⟩ := (each settled (.single (.attempt attempted)) []).1 0 idle
  exact ⟨settled, after, attempted, idle, ran, same⟩

end Analysis
end NwScript
