import NwScript.Proofs.InferenceSteps
import NwScript.Proofs.RefinementGrowth

/-!
# Rounds of refinement

Walks read neither the decisions that prototypes keep nor stack heights, and a round without a change
changes nothing else.  So every further round is like it, while a round that changes something only adds
to prototypes that are no guesses.
-/

namespace NwScript

namespace Prototype

/-- A prototype without the decisions of its last path. -/
def forget (proto : Prototype) : Prototype :=
  { proto with decisions := .empty }

theorem forget_decisions (proto : Prototype) (decisions : DecisionQueue) :
    forget { proto with decisions } = proto.forget := rfl

theorem refineParam_of_unchanged {proto : Prototype} {slot : Nat} {type : Ty}
    (unchanged : (proto.refineParam slot type).1 = false) :
    (proto.refineParam slot type).2 = proto := by
  rw [refineParam] at unchanged ⊢
  split at unchanged
  · split at unchanged
    · cases unchanged
    · rw [if_neg ‹_›]
  · rfl

theorem refineReturn_of_unchanged {proto : Prototype} {type : Ty}
    (unchanged : (proto.refineReturn type).1 = false) : (proto.refineReturn type).2 = proto := by
  rw [refineReturn] at unchanged ⊢
  split at unchanged
  · cases unchanged
  · rw [if_neg ‹_›]

theorem refineParam_forget (proto : Prototype) (slot : Nat) (type : Ty) :
    proto.forget.refineParam slot type =
      ((proto.refineParam slot type).1, (proto.refineParam slot type).2.forget) := by
  simp only [refineParam, forget]
  split
  · split <;> rfl
  · rfl

theorem refineReturn_forget (proto : Prototype) (type : Ty) :
    proto.forget.refineReturn type =
      ((proto.refineReturn type).1, (proto.refineReturn type).2.forget) := by
  rw [refineReturn, refineReturn]
  change (if (type.slots = proto.returnType.slots && !proto.returnType.isFullyTyped &&
    type.isFullyTyped) = true then _ else _) = _
  split <;> rfl

theorem refineParam_of_forget {proto other : Prototype} (same : other.forget = proto.forget)
    (slot : Nat) (type : Ty) :
    (other.refineParam slot type).1 = (proto.refineParam slot type).1 ∧
      (other.refineParam slot type).2.forget = (proto.refineParam slot type).2.forget := by
  have learned := congrArg (fun proto => proto.refineParam slot type) same
  rw [refineParam_forget, refineParam_forget, Prod.mk.injEq] at learned
  exact learned

theorem refineReturn_of_forget {proto other : Prototype} (same : other.forget = proto.forget)
    (type : Ty) :
    (other.refineReturn type).1 = (proto.refineReturn type).1 ∧
      (other.refineReturn type).2.forget = (proto.refineReturn type).2.forget := by
  have learned := congrArg (fun proto => proto.refineReturn type) same
  rw [refineReturn_forget, refineReturn_forget, Prod.mk.injEq] at learned
  exact learned

theorem refineParams_of_forget {proto other : Prototype} (same : other.forget = proto.forget)
    (types : List Ty) :
    (InferenceInput.refineParams other types).1 = (InferenceInput.refineParams proto types).1 ∧
      (InferenceInput.refineParams other types).2.forget =
        (InferenceInput.refineParams proto types).2.forget := by
  obtain ⟨counts, alike⟩ := tally_alike
    (fun {proto other : Prototype} (same : other.forget = proto.forget) entry =>
      refineParam_of_forget same entry.2 entry.1) types.zipIdx same 0
  exact ⟨counts, alike⟩

/-- Prototypes that say the same take over the same. -/
theorem mergeOutcome_of_forget {proto other : Prototype} (same : other.forget = proto.forget)
    (outcome : WalkOutcome) :
    (InferenceInput.mergeOutcome other outcome).1 = (InferenceInput.mergeOutcome proto outcome).1 ∧
      (InferenceInput.mergeOutcome other outcome).2.forget =
        (InferenceInput.mergeOutcome proto outcome).2.forget := by
  have guessed : other.flags.fallback = proto.flags.fallback :=
    (congrArg (fun proto : Prototype => proto.flags.fallback) same :)
  have counts : other.slots = proto.slots := (congrArg Prototype.slots same :)
  unfold InferenceInput.mergeOutcome
  rw [guessed, counts]
  split
  · exact ⟨rfl, (congrArg (fun proto : Prototype =>
      let installed := proto.install outcome.slots outcome.groups outcome.returnType
        outcome.returnDepth
      forget { installed with flags := { installed.flags with fallback := false } }) same :)⟩
  · split
    · obtain ⟨first, between⟩ := refineParams_of_forget same outcome.slots
      obtain ⟨second, last⟩ := refineReturn_of_forget between outcome.returnType
      dsimp only
      rw [first, second]
      exact ⟨rfl, last⟩
    · exact ⟨rfl, same⟩

/-- Another outcome that changes nothing leaves a prototype as it is. -/
theorem mergeOutcome_of_unchanged {proto : Prototype} {outcome : WalkOutcome}
    (unchanged : (InferenceInput.mergeOutcome proto outcome).1 = 0) :
    (InferenceInput.mergeOutcome proto outcome).2 = proto := by
  unfold InferenceInput.mergeOutcome at unchanged ⊢
  split at unchanged
  · cases unchanged
  · rename_i sure
    rw [if_neg sure]
    split at unchanged
    · rename_i counts
      rw [if_pos counts]
      dsimp only at unchanged ⊢
      obtain ⟨params, result⟩ := Nat.add_eq_zero_iff.mp unchanged
      have same : (InferenceInput.refineParams proto outcome.slots).2 = proto := by
        rw [InferenceInput.refineParams_eq_tally] at params ⊢
        exact (tally_unchanged (fun idle => refineParam_of_unchanged idle) _ _).2 params
      rw [same] at result ⊢
      exact refineReturn_of_unchanged (Bool.toNat_eq_zero.mp result)
    · rw [if_neg ‹_›]

end Prototype

namespace TypingContext

/-- Two contexts agree but for the decisions of prototypes and stack heights. -/
structure Alike (context other : TypingContext) : Prop where
  /-- The program. -/
  program : other.program = context.program
  /-- Positions, jumps and liveness. -/
  flow : context.table.SameFlow other.table
  /-- The calls. -/
  calls : other.calls = context.calls
  /-- Engine actions. -/
  catalog : other.catalog = context.catalog
  /-- Types of the globals. -/
  globals : other.globals = context.globals
  /-- What is known about prototypes. -/
  protos : ∀ callee : Nat, other.protos[callee]?.map Prototype.forget =
    context.protos[callee]?.map Prototype.forget
  /-- The subroutine. -/
  sub : other.sub = context.sub

variable {context other : TypingContext}

open TypeTrace

theorem Alike.stepCall (alike : context.Alike other) (command : Nat) (trace : TypeTrace) :
    trace.stepCall other command = trace.stepCall context command := by
  unfold TypeTrace.stepCall
  rw [alike.calls]
  split
  · rfl
  · rename_i callee _
    have same := alike.protos callee
    rw [alike.sub]
    cases known : context.protos[callee]? with
    | none =>
        rw [known] at same
        rw [Option.map_eq_none_iff.mp same]
    | some proto =>
        rw [known] at same
        obtain ⟨found, there, equal⟩ := Option.map_eq_some_iff.mp same
        rw [there]
        dsimp only
        have status : found.isPrototyped = proto.isPrototyped :=
          (congrArg Prototype.isPrototyped equal :)
        have called : trace.call callee found = trace.call callee proto :=
          (congrArg (trace.call callee) equal :)
        rw [status, called]

theorem Alike.execute (alike : context.Alike other) (globalsOnly : Bool) (command : Nat)
    (trace : TypeTrace) :
    trace.execute other globalsOnly command = trace.execute context globalsOnly command := by
  unfold TypeTrace.execute jumpFlow stepAction
  simp only [alike.program, alike.catalog, alike.globals, alike.stepCall, alike.flow.destination,
    alike.flow.state]

theorem Alike.successor (alike : context.Alike other) (command : Nat) (queue : DecisionQueue)
    (flow : Flow) : other.successor command queue flow = context.successor command queue flow := by
  unfold TypingContext.successor
  simp only [alike.program, alike.flow.destination]

theorem Alike.walkFrom (alike : context.Alike other) (globalsOnly : Bool) (steps : Nat)
    (command : Option Nat) (trace : TypeTrace) (queue : DecisionQueue) :
    other.walkFrom globalsOnly steps command trace queue =
      context.walkFrom globalsOnly steps command trace queue := by
  induction steps generalizing command trace queue with
  | zero => cases command <;> rfl
  | succ steps induction =>
      cases command with
      | none => rfl
      | some command =>
          unfold TypingContext.walkFrom TypeTrace.step
          simp only [alike.execute, alike.successor, alike.program, alike.sub, induction]

theorem Alike.walk (alike : context.Alike other) (globalsOnly : Bool) (queue : DecisionQueue) :
    other.walk globalsOnly queue = context.walk globalsOnly queue := by
  unfold TypingContext.walk stepLimit
  rw [alike.walkFrom, alike.program, alike.sub]

theorem Alike.exploreFrom (alike : context.Alike other) (budget : Option Nat)
    (cap attempts queued : Nat) (waiting : Option Nat) (queue : DecisionQueue) :
    other.exploreFrom budget cap attempts queued waiting queue =
      context.exploreFrom budget cap attempts queued waiting queue := by
  obtain ⟨left, bound⟩ : ∃ left, left = cap - queued := ⟨_, rfl⟩
  induction left using Nat.strong_induction_on generalizing attempts queued waiting queue with
  | _ left induction =>
      rw [TypingContext.exploreFrom, TypingContext.exploreFrom, alike.walk]
      cases context.walk false queue.rewind with
      | error fault => rfl
      | ok pair =>
          obtain ⟨result, walked⟩ := pair
          simp only [bind, Except.bind]
          split
          · rfl
          · split
            · rfl
            · split
              · rfl
              · split
                · have less : cap - (queued + max 1 (walked.length - queue.length)) < left := by omega
                  exact induction _ less _ _ _ _ rfl
                · rfl

/-- Walks read neither the decisions of prototypes nor stack heights. -/
theorem Alike.explore (alike : context.Alike other) (budget : Option Nat) (cap queued : Nat)
    (queue : DecisionQueue) :
    other.explore budget cap queued queue = context.explore budget cap queued queue :=
  alike.exploreFrom budget cap 0 queued none queue

end TypingContext

namespace FlowTable

variable {table other : FlowTable}

theorem SameFlow.symm (same : table.SameFlow other) : other.SameFlow table :=
  ⟨fun command => (same.rows command).symm, same.dead.symm⟩

/-- Heights that one table takes another with the same rows takes too. -/
theorem SameFlow.setHeight (same : table.SameFlow other) {command : Nat} {height : Int}
    {changed : FlowTable} (set : table.setHeight command height = .ok changed) :
    ∃ again, other.setHeight command height = .ok again ∧ changed.SameFlow again ∧
      table.SameFlow changed := by
  cases found : table.row? command with
  | none =>
      simp only [FlowTable.setHeight, update, found] at set
      cases set
  | some row =>
      obtain ⟨_, written, kept⟩ := setHeight_eq_ok found height
      obtain rfl := Except.ok.inj (written.symm.trans set)
      have agree := same.rows command
      rw [found] at agree
      obtain ⟨_, there, _⟩ := Option.map_eq_some_iff.mp agree
      obtain ⟨again, rewritten, still⟩ := setHeight_eq_ok there height
      exact ⟨again, rewritten, (kept.symm.trans same).trans still, kept⟩

end FlowTable

namespace InferenceState

variable {state like after last : InferenceState}

/-- Two states agree but for the decisions of prototypes, stack heights and reports. -/
structure Alike (state like : InferenceState) : Prop where
  /-- What is known about prototypes. -/
  protos : ∀ sub : Nat, like.protos[sub]?.map Prototype.forget =
    state.protos[sub]?.map Prototype.forget
  /-- Positions, jumps and liveness. -/
  flow : state.table.SameFlow like.table

theorem Alike.refl (state : InferenceState) : state.Alike state :=
  ⟨fun _ => rfl, .refl _⟩

theorem Alike.symm (alike : state.Alike like) : like.Alike state :=
  ⟨fun sub => (alike.protos sub).symm, alike.flow.symm⟩

theorem Alike.trans (first : state.Alike like) (second : like.Alike last) : state.Alike last :=
  ⟨fun sub => (second.protos sub).trans (first.protos sub), first.flow.trans second.flow⟩

theorem Alike.protos_map (alike : state.Alike like) :
    like.protos.map Prototype.forget = state.protos.map Prototype.forget :=
  Array.ext_getElem? fun sub => by simpa using alike.protos sub

theorem Alike.proto (alike : state.Alike like) (sub : Nat) :
    (like.proto sub).forget = (state.proto sub).forget := by
  have same := alike.protos sub
  rw [InferenceState.proto, InferenceState.proto, Array.getD_eq_getD_getElem?,
    Array.getD_eq_getD_getElem?]
  cases known : state.protos[sub]? with
  | none =>
      rw [known] at same
      rw [Option.map_eq_none_iff.mp same]
  | some proto =>
      rw [known] at same
      obtain ⟨found, there, equal⟩ := Option.map_eq_some_iff.mp same
      rw [there]
      exact equal

theorem Alike.setProto (alike : state.Alike like) (sub : Nat) {proto other : Prototype}
    (same : other.forget = proto.forget) :
    (state.setProto sub proto).Alike (like.setProto sub other) := by
  refine ⟨fun callee => ?_, alike.flow⟩
  have agree := alike.protos callee
  simp only [InferenceState.setProto, Array.getElem?_setIfInBounds]
  by_cases here : sub = callee
  · subst here
    have sizes : sub < like.protos.size ↔ sub < state.protos.size := by
      have absent : like.protos[sub]? = none ↔ state.protos[sub]? = none := by
        rw [← Option.map_eq_none_iff (f := Prototype.forget), agree, Option.map_eq_none_iff]
      rw [Array.getElem?_eq_none_iff, Array.getElem?_eq_none_iff] at absent
      omega
    by_cases inside : sub < state.protos.size
    · simp [inside, sizes.mpr inside, same]
    · simp [inside, mt sizes.mp inside]
  · simpa [here] using agree

theorem Alike.context (alike : state.Alike like) (input : InferenceInput) (globals : List Ty)
    (sub : Nat) : (input.context state globals sub).Alike (input.context like globals sub) :=
  ⟨rfl, alike.flow, rfl, rfl, rfl, alike.protos, rfl⟩

theorem setProto_proto (state : InferenceState) (sub : Nat) :
    state.setProto sub (state.proto sub) = state := by
  rw [setProto, InferenceState.proto]
  congr 1
  refine Array.ext (by simp) fun index _ inside => ?_
  rw [Array.getElem_setIfInBounds]
  split
  · subst sub
    simp [Array.getD_eq_getD_getElem?, inside]
  · rfl

/-- Callees learn the same in both states. -/
theorem Alike.refineCallees (alike : state.Alike like) (refinements : List Refinement) :
    (like.refineCallees refinements).1 = (state.refineCallees refinements).1 ∧
      (state.refineCallees refinements).2.Alike (like.refineCallees refinements).2 := by
  rw [refineCallees_eq_tally, refineCallees_eq_tally]
  refine tally_alike (fun {state like} alike refinement => ?_) refinements alike 0
  obtain ⟨changed, same⟩ := Prototype.refineParam_of_forget (alike.proto refinement.callee)
    refinement.slot refinement.type
  exact ⟨changed, alike.setProto refinement.callee same⟩

theorem refineCallees_of_unchanged {refinements : List Refinement}
    (unchanged : (state.refineCallees refinements).1 = 0) :
    (state.refineCallees refinements).2 = state := by
  rw [refineCallees_eq_tally] at unchanged ⊢
  refine (tally_unchanged (fun {state refinement} idle => ?_) refinements (0, state)).2 unchanged
  have same := Prototype.refineParam_of_unchanged idle
  rw [refineCallee, same, setProto_proto]

theorem recordHeights_eq (state : InferenceState) (heights : List (Nat × Int)) :
    state.recordHeights heights =
      (heights.foldlM (fun table entry => FlowTable.setHeight table entry.1 entry.2)
        state.table).map fun table => { state with table } := by
  show (heights.foldlM (fun table (entry : Nat × Int) => FlowTable.setHeight table entry.1 entry.2)
    state.table >>= fun table => pure { state with table }) = _
  cases heights.foldlM (fun table (entry : Nat × Int) => FlowTable.setHeight table entry.1 entry.2)
    state.table <;> rfl

/-- Heights that can be recorded in one state can be recorded in another like it. -/
theorem Alike.recordHeights (alike : state.Alike like) {heights : List (Nat × Int)}
    (recorded : state.recordHeights heights = .ok after) :
    (∃ last, like.recordHeights heights = .ok last ∧ after.Alike last) ∧ state.Alike after := by
  have folded : ∀ (heights : List (Nat × Int)) (table other changed : FlowTable),
      table.SameFlow other →
      heights.foldlM (fun table entry => FlowTable.setHeight table entry.1 entry.2) table =
        .ok changed →
      (∃ again, heights.foldlM (fun table entry => FlowTable.setHeight table entry.1 entry.2) other =
        .ok again ∧ changed.SameFlow again) ∧ table.SameFlow changed := by
    intro heights
    induction heights with
    | nil =>
        intro table other changed same done
        cases done
        exact ⟨⟨other, rfl, same⟩, .refl table⟩
    | cons entry heights induction =>
        intro table other changed same done
        rw [List.foldlM_cons] at done
        cases set : FlowTable.setHeight table entry.1 entry.2 with
        | error fault =>
            rw [set] at done
            cases done
        | ok next =>
            rw [set] at done
            obtain ⟨written, rewritten, still, kept⟩ := same.setHeight set
            obtain ⟨⟨again, finished, final⟩, behind⟩ := induction next written changed still done
            refine ⟨⟨again, ?_, final⟩, kept.trans behind⟩
            rw [List.foldlM_cons, rewritten]
            exact finished
  rw [recordHeights_eq] at recorded ⊢
  cases done : heights.foldlM (fun table entry => FlowTable.setHeight table entry.1 entry.2)
      state.table with
  | error fault =>
      rw [done] at recorded
      cases recorded
  | ok changed =>
      obtain ⟨⟨again, finished, final⟩, kept⟩ := folded heights _ _ changed alike.flow done
      rw [done] at recorded
      cases recorded
      refine ⟨⟨{ like with table := again }, ?_, alike.protos, final⟩, fun _ => rfl, kept⟩
      rw [finished]
      rfl

end InferenceState

/-- Where one step of inference succeeds, another one does from a state that says the same, with the
same value, and ends in a state that says the same. -/
def Infer.Mirrors {α : Type} (state like : InferenceState) (action other : Infer α) : Prop :=
  ∀ value after, action.run state = .ok (value, after) →
    ∃ last, other.run like = .ok (value, last) ∧ after.Alike last

namespace Infer

variable {α β : Type} {state like : InferenceState}

theorem Mirrors.value {value other : α} (alike : state.Alike like) (same : other = value) :
    Mirrors state like (pure value) (pure other) := by
  intro result after ran
  cases ran
  exact ⟨like, by rw [same]; rfl, alike⟩

/-- What follows may rely on what the first step is known to lead to. -/
theorem Mirrors.bind_leads {action other : Infer α} {next follow : α → Infer β}
    {holds : InferenceState → Prop} (first : Mirrors state like action other)
    (leads : Leads state action fun _ after => holds after)
    (second : ∀ value {after last : InferenceState}, holds after → after.Alike last →
      Mirrors after last (next value) (follow value)) :
    Mirrors state like (action >>= next) (other >>= follow) := by
  intro result after ran
  rw [StateT.run_bind] at ran
  cases gone : action.run state with
  | error fault =>
      rw [gone] at ran
      cases ran
  | ok pair =>
      obtain ⟨value, between⟩ := pair
      rw [gone] at ran
      obtain ⟨reached, went, alike⟩ := first value between gone
      obtain ⟨last, finished, final⟩ := second value (leads value between gone) alike result after ran
      refine ⟨last, ?_, final⟩
      rw [StateT.run_bind, went]
      exact finished

theorem Mirrors.bind {action other : Infer α} {next follow : α → Infer β}
    (first : Mirrors state like action other)
    (second : ∀ value {after last : InferenceState}, after.Alike last →
      Mirrors after last (next value) (follow value)) :
    Mirrors state like (action >>= next) (other >>= follow) :=
  first.bind_leads (fun _ _ _ => trivial) fun value _ _ _ alike => second value alike

theorem Mirrors.reads {next follow : InferenceState → Infer β}
    (mirrors : Mirrors state like (next state) (follow like)) :
    Mirrors state like ((get : Infer InferenceState) >>= next) (get >>= follow) :=
  fun value after ran => mirrors value after ran

theorem Mirrors.writes {changed other : InferenceState} {next follow : Unit → Infer β}
    (mirrors : Mirrors changed other (next ()) (follow ())) :
    Mirrors state like ((set changed : Infer Unit) >>= next) (set other >>= follow) :=
  fun value after ran => mirrors value after ran

theorem Mirrors.lift {outcome again : Except Fault α} {next follow : α → Infer β}
    (mirrors : ∀ value, outcome = .ok value →
      ∃ other, again = .ok other ∧ Mirrors state like (next value) (follow other)) :
    Mirrors state like ((liftM outcome : Infer α) >>= next) (liftM again >>= follow) := by
  intro result after ran
  cases outcome with
  | error fault => cases ran
  | ok value =>
      obtain ⟨other, rfl, same⟩ := mirrors value rfl
      exact same result after ran

theorem Mirrors.foldlM {items : List β} {step other : α → β → Infer α}
    {holds : InferenceState → Prop}
    (each : ∀ item value {state like : InferenceState}, holds state → state.Alike like →
      Mirrors state like (step value item) (other value item))
    (keeps : ∀ item value {state : InferenceState}, holds state →
      Leads state (step value item) fun _ after => holds after) {start : α}
    (begins : holds state) (alike : state.Alike like) :
    Mirrors state like (items.foldlM step start) (items.foldlM other start) := by
  induction items generalizing start state like with
  | nil => exact .value alike rfl
  | cons item items induction =>
      rw [List.foldlM_cons, List.foldlM_cons]
      exact (each item start begins alike).bind_leads (keeps item start begins)
        fun value _ _ still next => induction still next

end Infer

namespace InferenceInput

open Infer (Leads Mirrors)
open InferenceState (Alike)

variable {input : InferenceInput} {state like : InferenceState} {globals : List Ty} {sub : Nat}

theorem explore_mirrors (alike : state.Alike like) (budget : Option Nat) (queued : Nat) :
    Mirrors state like (input.explore globals budget queued sub)
      (input.explore globals budget queued sub) := by
  unfold explore
  refine .reads (.lift fun exploration explored => ⟨exploration, ?_, .writes (.value ?_ rfl)⟩)
  · rw [(alike.context input globals sub).explore]
    exact explored
  · exact alike.setProto sub (alike.proto sub)

theorem applyEvidence_mirrors (alike : state.Alike like) (outcome : WalkOutcome) :
    Mirrors state like (applyEvidence outcome) (applyEvidence outcome) := by
  unfold applyEvidence
  obtain ⟨counts, refined⟩ := alike.refineCallees outcome.refinements
  refine .reads (.lift fun recorded found => ?_)
  obtain ⟨⟨last, again, same⟩, _⟩ := refined.recordHeights found
  exact ⟨last, again, .writes (.value same counts)⟩

theorem merge_mirrors (alike : state.Alike like) (outcome : WalkOutcome) :
    Mirrors state like (merge sub outcome) (merge sub outcome) := by
  unfold merge
  obtain ⟨counts, merged⟩ := Prototype.mergeOutcome_of_forget (alike.proto sub) outcome
  refine .reads (.writes ?_)
  exact (applyEvidence_mirrors (alike.setProto sub merged) outcome).bind fun more _ _ same =>
    .value same (congrArg (· + more) counts)

theorem needsRefinement_eq (alike : state.Alike like) :
    input.needsRefinement like sub = input.needsRefinement state sub := by
  have typed : ∀ sub, (like.proto sub).isFullyTyped = (state.proto sub).isFullyTyped :=
    fun sub => (congrArg Prototype.isFullyTyped (alike.proto sub) :)
  have guessed : (like.proto sub).flags.fallback = (state.proto sub).flags.fallback :=
    (congrArg (fun proto : Prototype => proto.flags.fallback) (alike.proto sub) :)
  rw [needsRefinement, needsRefinement, guessed, typed]
  simp only [typed]

theorem refineAnyway_mirrors (alike : state.Alike like) (sub : Nat) :
    Mirrors state like (input.refineAnyway globals sub) (input.refineAnyway globals sub) := by
  unfold refineAnyway
  refine (explore_mirrors alike _ 0).bind fun answer after last same => ?_
  split
  · exact merge_mirrors same _
  · exact .value same rfl

theorem refineOne_mirrors (alike : state.Alike like) (sub : Nat) :
    Mirrors state like (input.refineOne globals sub) (input.refineOne globals sub) := by
  rw [refineOne_eq_ite]
  refine .reads ?_
  rw [needsRefinement_eq alike]
  split
  · exact refineAnyway_mirrors alike sub
  · exact .value alike rfl

/-- Rounds from states that say the same change the same. -/
theorem refineRound_mirrors (alike : state.Alike like) :
    Mirrors state like (input.refineRound globals) (input.refineRound globals) :=
  .foldlM (fun sub _ {_ _} _ same =>
    (refineOne_mirrors same sub).bind fun _ _ _ last => .value last rfl)
    (fun _ _ {_} _ _ _ _ => trivial) trivial alike

theorem applyEvidence_idles (outcome : WalkOutcome) :
    Leads state (applyEvidence outcome) fun changes after => changes = 0 → state.Alike after := by
  unfold applyEvidence
  refine .reads (.lift fun recorded found => .writes (.value fun unchanged => ?_))
  have kept : (state.refineCallees outcome.refinements).2.recordHeights outcome.heights =
    .ok recorded := found
  rw [InferenceState.refineCallees_of_unchanged unchanged] at kept
  exact ((Alike.refl state).recordHeights kept).2

theorem merge_idles (outcome : WalkOutcome) :
    Leads state (merge sub outcome) fun changes after => changes = 0 → state.Alike after := by
  unfold merge
  refine .reads (.writes ((applyEvidence_idles outcome).bind fun more after idle =>
    .value fun unchanged => ?_))
  obtain ⟨merged, learned⟩ := Nat.add_eq_zero_iff.mp unchanged
  have same : (state.setProto sub (mergeOutcome (state.proto sub) outcome).2).Alike after :=
    idle learned
  rwa [Prototype.mergeOutcome_of_unchanged merged, InferenceState.setProto_proto] at same

/-- An exploration changes nothing but decisions. -/
theorem explore_idles (budget : Option Nat) (queued : Nat) :
    Leads state (input.explore globals budget queued sub) fun _ after => state.Alike after := by
  unfold explore
  refine .reads (.lift fun exploration _ => .writes (.value ?_))
  have kept := (Alike.refl state).setProto sub
    (Prototype.forget_decisions (state.proto sub) exploration.queue)
  rwa [InferenceState.setProto_proto] at kept

theorem refineAnyway_idles (sub : Nat) :
    Leads state (input.refineAnyway globals sub) fun changes after =>
      changes = 0 → state.Alike after := by
  unfold refineAnyway
  refine (explore_idles _ 0).bind fun answer between same => ?_
  split
  · exact (merge_idles _).weaken fun changes after idle unchanged => same.trans (idle unchanged)
  · exact .value fun _ => same

theorem refineOne_idles (sub : Nat) :
    Leads state (input.refineOne globals sub) fun changes after => changes = 0 → state.Alike after := by
  rw [refineOne_eq_ite]
  refine .reads ?_
  split
  · exact refineAnyway_idles sub
  · exact .value fun _ => .refl state

/-- A round without a change ends in a state that says the same. -/
theorem refineRound_idles :
    Leads state (input.refineRound globals) fun changes after => changes = 0 → state.Alike after := by
  refine .foldlM (fun sub _ changes between idle =>
    (refineOne_idles sub).bind fun more after still => .value fun unchanged => ?_) fun _ => .refl state
  obtain ⟨before, now⟩ := Nat.add_eq_zero_iff.mp unchanged
  exact (idle before).trans (still now)

/-- A number of rounds, whatever they change; says how much each did. -/
def furtherRounds (input : InferenceInput) (globals : List Ty) : (count : Nat) → Infer (List Nat)
  | 0 => return []
  | count + 1 => do
      let changes ← input.refineRound globals
      return changes :: (← input.furtherRounds globals count)

/-- After a round without a change no further round changes anything. -/
theorem furtherRounds_idle {after : InferenceState}
    (ran : (input.refineRound globals).run state = .ok (0, after)) (count : Nat) :
    ∃ last, (input.furtherRounds globals count).run after = .ok (List.replicate count 0, last) ∧
      after.Alike last := by
  induction count generalizing state after with
  | zero => exact ⟨after, rfl, .refl after⟩
  | succ count induction =>
      have same := refineRound_idles 0 after ran rfl
      obtain ⟨next, again, alike⟩ := refineRound_mirrors same 0 after ran
      obtain ⟨last, rest, final⟩ := induction again
      refine ⟨last, ?_, alike.trans final⟩
      unfold furtherRounds
      rw [StateT.run_bind, again]
      show (input.furtherRounds globals count >>= fun more =>
        pure (0 :: more) : Infer (List Nat)).run next = _
      rw [StateT.run_bind, rest]
      rfl

end InferenceInput

namespace Analysis

open TypingContext (recursing recursingWalks aroundCall)

/-- Refinement only adds knowledge.  If inference may make one more round, then a prototype that is not
a guess, or that still is one afterwards, keeps its slots, the types of those that are determined, and a
result that is fully typed; only guesses are replaced.  After a round that changes nothing, which is told
by its count, every further round changes nothing but the decisions that prototypes keep. -/
theorem refinement_adds_knowledge (program : Program) (catalog : ActionCatalog) (settings : Settings)
    (rounds : Nat) :
    (∀ former, ofProgram program catalog (settings.withRounds rounds) = .ok former →
      ∃ later, ofProgram program catalog (settings.withRounds (rounds + 1)) = .ok later ∧
        ∀ sub, let before := former.inference.protos.getD sub {}
          let after := later.inference.protos.getD sub {}
          before.flags.fallback = false ∨ after.flags.fallback = true →
            after.flags.fallback = before.flags.fallback ∧
            after.slotCount = before.slotCount ∧
            (∀ (slot : Nat) (type : Ty), before.slots[slot]? = some type → type.isKnown = true →
              after.slots[slot]? = some type) ∧
            (before.returnType.isFullyTyped = true → after.returnType = before.returnType)) ∧
    ∀ (input : InferenceInput) globals state after,
      (input.refineRound globals).run state = .ok (0, after) → ∀ count, ∃ last,
        (input.furtherRounds globals count).run after = .ok (List.replicate count 0, last) ∧
        ∀ sub, let before := after.proto sub
          let now := last.proto sub
          now.slots = before.slots ∧ now.params = before.params ∧ now.groups = before.groups ∧
            now.returnType = before.returnType ∧ now.flags = before.flags := by
  refine ⟨fun former done => ?_, fun input globals state after ran count => ?_⟩
  · have placed := isWellPlaced_of_ofProgram done
    obtain ⟨later, more⟩ :=
      (ofProgram_outcome program catalog (settings.withRounds (rounds + 1))).1.mpr placed
    refine ⟨later, more, fun sub => ?_⟩
    intro before after kept
    have grows : before.Grows after := (ofProgram_succ_improves done more sub).grows kept
    exact ⟨grows.guessed, grows.slotCount, fun slot type => grows.slot, grows.result⟩
  · obtain ⟨last, further, alike⟩ := InferenceInput.furtherRounds_idle ran count
    refine ⟨last, further, fun sub => ?_⟩
    intro before now
    have same : now.forget = before.forget := alike.proto sub
    exact ⟨(congrArg Prototype.slots same :), (congrArg Prototype.params same :),
      (congrArg Prototype.groups same :), (congrArg Prototype.returnType same :),
      (congrArg Prototype.flags same :)⟩

/-- The calls of a subroutine that calls itself once. -/
def recursingCalls : CallGraph :=
  ⟨⟨#[[(0, 3)]], #[[(0, 3)]], 1⟩, #[none, none, none, some 0, none, none], [[0]]⟩

/-- Inference for this subroutine without rounds of refinement. -/
def recursingInput : InferenceInput :=
  (inferenceInput recursing recursingCalls .empty {}).withRounds 0

/-- The state before. -/
def recursingStart : InferenceState :=
  recursingInput.initialState ⟨0, none, none, none, 0⟩ recursingWalks.table

/-- A state in which everything is known about it. -/
def recursingKnown : InferenceState where
  protos := #[{
    status := .done
    flags := { paramsTyped := true, returnTyped := true }
    slots := [.int] }]
  table := recursingWalks.table
  queued := #[2]

/-- The call blocks the first path, and the second one settles the subroutine. -/
theorem run_attempt_recursing :
    ∃ settled, (recursingInput.attempt [] (some 10) 0).run recursingStart = .ok (true, settled) ∧
      (settled.proto 0).status = .done ∧ (settled.proto 0).flags.fallback = false ∧
      (settled.proto 0).slots = [.int] ∧ (settled.proto 0).isFullyTyped = true := by
  let context := recursingInput.context (recursingStart.begun 0) [] 0
  have blocked : context.walk false DecisionQueue.empty.rewind =
      .ok (.blocked 0, ⟨#[⟨1, false⟩], 1⟩) := rfl
  have passed : context.walk false (DecisionQueue.rewind ⟨#[⟨1, true⟩], 0⟩) =
      .ok (.complete aroundCall, ⟨#[⟨1, true⟩], 1⟩) := rfl
  have turned : DecisionQueue.backtrack ⟨#[⟨1, false⟩], 1⟩ = (true, ⟨#[⟨1, true⟩], 0⟩) :=
    DecisionQueue.backtrack_eq _
  have explored : context.explore (some 10) recursingInput.limits.maxDecisions
      (recursingStart.queued.getD 0 0) .empty =
        .ok ⟨.found aroundCall, ⟨#[⟨1, true⟩], 1⟩, 2⟩ := by
    rw [TypingContext.explore, TypingContext.exploreFrom, blocked]
    simp only [bind, Except.bind, turned]
    rw [TypingContext.exploreFrom, passed]
    rfl
  rw [InferenceInput.run_attempt (by decide), explored]
  refine ⟨_, rfl, rfl, rfl, rfl, ?_⟩
  change (Prototype.install _ [.int] [] .void none).isFullyTyped = true
  simp [Prototype.install, Prototype.refreshFlags, Prototype.isFullyTyped, Prototype.params,
    Prototype.paramsFrom, Prototype.groupAt?, Ty.isFullyTyped, Ty.isKnown]

theorem flowTable_recursing : flowTable recursing = .ok recursingWalks.table := by decide +kernel

theorem build_recursing : CallGraph.build recursing recursingWalks.table = .ok recursingCalls := by
  have components : recursingCalls.graph.components = [[0]] := by
    refine Digraph.components_of_single (fun source target edge => ?_) rfl
    rcases source with _ | source
    · obtain rfl : target = 0 := List.mem_singleton.mp edge
      exact Nat.zero_lt_one
    · cases edge
  have graph : CallGraph.build recursing recursingWalks.table =
    .ok ⟨recursingCalls.graph, recursingCalls.targets, recursingCalls.graph.components⟩ := rfl
  rwa [components] at graph

/-- The analysis of the program sees the one call and no globals. -/
theorem calls_recursing {settings : Settings} {analysis : Analysis}
    (done : ofProgram recursing .empty settings = .ok analysis) :
    flowTable recursing = .ok recursingWalks.table ∧ analysis.calls = recursingCalls ∧
      analysis.layout = ⟨0, none, none, none, 0⟩ := by
  obtain ⟨table, _, flow, built, detected, _⟩ := exists_of_ofProgram done
  obtain rfl : recursingWalks.table = table := Except.ok.inj (flowTable_recursing.symm.trans flow)
  have calls : analysis.calls = recursingCalls := Except.ok.inj (built.symm.trans build_recursing)
  have layout : Layout.detect recursing recursingWalks.table recursingCalls =
    .ok ⟨0, none, none, none, 0⟩ := by decide +kernel
  rw [calls] at detected
  exact ⟨flow, calls, Except.ok.inj (detected.symm.trans layout)⟩

/-- So solving the program settles it. -/
theorem run_solve_recursing {settled : InferenceState}
    (attempted : (recursingInput.attempt [] (some 10) 0).run recursingStart = .ok (true, settled))
    (known : (settled.proto 0).status = .done) :
    (recursingInput.solve ⟨0, none, none, none, 0⟩).run recursingStart = .ok ([], settled) := by
  have solving : (recursingInput.solveComponent [] [0]).run recursingStart = .ok ((), settled) :=
    InferenceInput.run_solveComponent_of_attempt rfl (by decide) attempted known
  show ((recursingInput.solveComponent [] [0] >>= fun _ => pure ()) >>= fun _ => pure [] :
    Infer (List Ty)).run recursingStart = _
  rw [StateT.run_bind, StateT.run_bind, solving]
  rfl

theorem refinement_adds_knowledge_recursing :
    (∃ former later, ofProgram recursing .empty (Settings.withRounds {} 0) = .ok former ∧
      ofProgram recursing .empty (Settings.withRounds {} 1) = .ok later ∧
      (later.inference.protos.getD 0 {}).slots[0]? = some .int) ∧
    ∃ last, (recursingInput.furtherRounds [] 3).run recursingKnown = .ok ([0, 0, 0], last) := by
  obtain ⟨grows, idles⟩ := refinement_adds_knowledge recursing .empty {} 0
  constructor
  · obtain ⟨former, done⟩ :=
      (ofProgram_outcome recursing .empty (Settings.withRounds {} 0)).1.mpr isWellPlaced_recursing
    obtain ⟨later, more, keeps⟩ := grows former done
    obtain ⟨known, calls, layout⟩ := calls_recursing done
    obtain ⟨table, after, flow, _, _, ran⟩ := exists_of_ofProgram done
    obtain rfl : recursingWalks.table = table := Except.ok.inj (known.symm.trans flow)
    rw [calls, layout] at ran
    obtain ⟨globals, solved, first, refined, protos⟩ := InferenceInput.exists_of_infer ran
    obtain ⟨settled, attempted, status, sure, slots, -⟩ := run_attempt_recursing
    obtain ⟨rfl, rfl⟩ := Prod.mk.inj (Except.ok.inj
      (first.symm.trans (run_solve_recursing attempted status)))
    obtain ⟨_, rfl⟩ := Prod.mk.inj (Except.ok.inj refined)
    refine ⟨former, later, done, more, ?_⟩
    have same : former.inference.protos.getD 0 {} = solved.proto 0 := by rw [protos]; rfl
    obtain ⟨_, _, typed, _⟩ := keeps 0 (.inl (same ▸ sure))
    exact typed 0 .int (by rw [same, slots]; rfl) rfl
  · obtain ⟨last, further, _⟩ := idles recursingInput [] recursingKnown recursingKnown rfl 3
    exact ⟨last, further⟩

end Analysis
end NwScript
