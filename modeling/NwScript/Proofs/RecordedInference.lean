import NwScript.Proofs.InferenceProgress
import Mathlib.Logic.Function.Basic

/-!
# Recorded inference

Inference that keeps a record of its explorations: what each of them read, while which component was
being solved, and what it gave.  Without the record it is the inference.
-/

namespace NwScript

/-- One exploration of a subroutine. -/
structure Visit where
  /-- The component that is being solved; none in refinement. -/
  component : Option (List Nat)
  /-- What the walks read. -/
  context : TypingContext
  /-- How many paths may be tried. -/
  budget : Option Nat
  /-- Decisions queued before. -/
  queued : Nat
  /-- What the exploration gave. -/
  exploration : Exploration

/-- A step of inference with a record of the explorations. -/
abbrev Recorded (α : Type) := StateT (List Visit) Infer α

namespace InferenceInput

/-- Add an exploration to the record. -/
def record (visit : Visit) : Recorded Unit :=
  modify (· ++ [visit])

/-- Explore a subroutine from scratch and record that. -/
def exploreRecorded (input : InferenceInput) (component : Option (List Nat)) (globals : List Ty)
    (budget : Option Nat) (queued sub : Nat) : Recorded (PathResult × Nat) := do
  let state ← (get : Infer InferenceState)
  let context := input.context state globals sub
  let exploration ←
    (liftM (context.explore budget input.limits.maxDecisions queued .empty) : Infer Exploration)
  record ⟨component, context, budget, queued, exploration⟩
  (set (state.setProto sub { state.proto sub with decisions := exploration.queue }) : Infer Unit)
  return (exploration.result, exploration.queued)

/-- Try to settle one open subroutine of a component; says whether that succeeded. -/
def attemptRecorded (input : InferenceInput) (component : List Nat) (globals : List Ty)
    (budget : Option Nat) (sub : Nat) : Recorded Bool := do
  if (← (get : Infer InferenceState)).isOpen sub then
    (modify fun state => state.setProto sub { state.proto sub with status := .inProgress } :
      Infer Unit)
    let (result, queued) ← input.exploreRecorded (some component) globals budget
      ((← (get : Infer InferenceState)).queued.getD sub 0) sub
    (modify fun state => { state with queued := state.queued.setIfInBounds sub queued } : Infer Unit)
    match result with
    | .found outcome =>
        (settle sub outcome : Infer Unit)
        return true
    | .blocked _ => return false
    | .limitExceeded =>
        (modify (input.giveUp sub) : Infer Unit)
        return false
  else
    return false

/-- Try each subroutine of a component once; says whether any was settled. -/
def attemptAllRecorded (input : InferenceInput) (globals : List Ty) (budget : Option Nat)
    (component : List Nat) : Recorded Bool :=
  component.foldlM
    (fun progress sub =>
      return (← input.attemptRecorded component globals budget sub) || progress) false

/-- Repeat attempts while they settle something, at most `rounds` times. -/
def passRecorded (input : InferenceInput) (globals : List Ty) (budget : Option Nat)
    (component : List Nat) : (rounds : Nat) → Recorded Unit
  | 0 => pure ()
  | rounds + 1 => do
      if ← input.attemptAllRecorded globals budget component then
        input.passRecorded globals budget component rounds

/-- Run the passes while some subroutine of a component is open. -/
def passesRecorded (input : InferenceInput) (globals : List Ty) (component : List Nat) :
    List (Option Nat) → Recorded Unit
  | [] => pure ()
  | budget :: budgets => do
      if component.any (← (get : Infer InferenceState)).isOpen then
        input.passRecorded globals budget component (component.length + 1)
        input.passesRecorded globals component budgets

/-- Give every subroutine of a component a prototype. -/
def solveComponentRecorded (input : InferenceInput) (globals : List Ty) (component : List Nat) :
    Recorded Unit := do
  input.passesRecorded globals component input.limits.passBudgets
  (component.forM input.guess : Infer Unit)

/-- Refine one subroutine if it may learn something; says how much changed. -/
def refineOneRecorded (input : InferenceInput) (globals : List Ty) (sub : Nat) : Recorded Nat := do
  if input.needsRefinement (← (get : Infer InferenceState)) sub then
    match (← input.exploreRecorded none globals input.limits.refinementBudget 0 sub).1 with
    | .found outcome => (merge sub outcome : Infer Nat)
    | _ => return 0
  else
    return 0

/-- One round of refinement, callees first; says how much changed. -/
def refineRoundRecorded (input : InferenceInput) (globals : List Ty) : Recorded Nat :=
  input.calls.components.flatten.foldlM
    (fun changes sub => return changes + (← input.refineOneRecorded globals sub)) 0

/-- Refine in rounds until one changes nothing, at most `rounds` times. -/
def refineRecorded (input : InferenceInput) (globals : List Ty) : (rounds : Nat) → Recorded Unit
  | 0 => pure ()
  | rounds + 1 => do
      if (← input.refineRoundRecorded globals) ≠ 0 then
        input.refineRecorded globals rounds

/-- Infer all prototypes and the global types. -/
def inferRecorded (input : InferenceInput) (layout : Layout) : Recorded Inference := do
  let before ← (liftM (input.findGlobals layout (← (get : Infer InferenceState))) :
    Infer (Option (List Ty)))
  input.calls.components.forM (input.solveComponentRecorded (before.getD []))
  let globals ← match before with
    | some globals => pure globals
    | none =>
        pure ((← (liftM (input.findGlobals layout (← (get : Infer InferenceState))) :
          Infer (Option (List Ty)))).getD [])
  input.refineRecorded globals input.limits.refinementRounds
  let state ← (get : Infer InferenceState)
  return ⟨state.protos, globals, state.failures⟩

end InferenceInput

namespace Recorded

variable {α β : Type}

/-- Without its record a step is a step of inference. -/
def Erases (recorded : Recorded α) (plain : Infer α) : Prop :=
  ∀ log, (·.1) <$> recorded.run log = plain

theorem Erases.value (value : α) : Erases (pure value) (pure value) := by
  intro log
  rw [StateT.run_pure, map_pure]

theorem Erases.lift (plain : Infer α) : Erases (liftM plain) plain := by
  intro log
  show (·.1) <$> (plain >>= fun value => pure (value, log)) = plain
  simp

theorem Erases.bind {recorded : Recorded α} {plain : Infer α} {next : α → Recorded β}
    {follow : α → Infer β} (first : Erases recorded plain)
    (second : ∀ value, Erases (next value) (follow value)) :
    Erases (recorded >>= next) (plain >>= follow) := by
  intro log
  rw [StateT.run_bind, map_bind, ← first log, bind_map_left]
  exact bind_congr fun pair => second pair.1 pair.2

theorem Erases.record {visit : Visit} {next : Unit → Recorded α} {plain : Infer α}
    (erases : Erases (next ()) plain) : Erases (InferenceInput.record visit >>= next) plain :=
  fun log => erases (log ++ [visit])

theorem Erases.branch {condition : Prop} [Decidable condition] {first second : Recorded α}
    {one other : Infer α} (yes : Erases first one) (no : Erases second other) :
    Erases (if condition then first else second) (if condition then one else other) := by
  split
  · exact yes
  · exact no

theorem Erases.foldlM {items : List β} {step : α → β → Recorded α} {plain : α → β → Infer α}
    (each : ∀ value item, Erases (step value item) (plain value item)) (start : α) :
    Erases (items.foldlM step start) (items.foldlM plain start) := by
  induction items generalizing start with
  | nil => exact .value start
  | cons item items induction =>
      rw [List.foldlM_cons, List.foldlM_cons]
      exact (each start item).bind induction

theorem Erases.forM {items : List β} {action : β → Recorded Unit} {plain : β → Infer Unit}
    (each : ∀ item, Erases (action item) (plain item)) :
    Erases (items.forM action) (items.forM plain) := by
  induction items with
  | nil => exact .value ()
  | cons item items induction => exact (each item).bind fun _ => induction

/-- A recorded step ends where the step of inference ends. -/
theorem Erases.run {recorded : Recorded α} {plain : Infer α} (erases : Erases recorded plain)
    {log added : List Visit} {before after : InferenceState} {value : α}
    (ran : (recorded.run log).run before = .ok ((value, added), after)) :
    plain.run before = .ok (value, after) := by
  rw [← erases log, StateT.run_map, ran]
  rfl

/-- Where the step of inference ends, the recorded step ends too. -/
theorem Erases.exists_run {recorded : Recorded α} {plain : Infer α} (erases : Erases recorded plain)
    (log : List Visit) {before after : InferenceState} {value : α}
    (ran : plain.run before = .ok (value, after)) :
    ∃ added, (recorded.run log).run before = .ok ((value, added), after) := by
  rw [← erases log, StateT.run_map] at ran
  cases gone : (recorded.run log).run before with
  | error fault =>
      rw [gone] at ran
      cases ran
  | ok pair =>
      rw [gone] at ran
      cases ran
      exact ⟨pair.1.2, rfl⟩

end Recorded

namespace InferenceInput

open Recorded (Erases)

variable (input : InferenceInput) (globals : List Ty)

theorem exploreRecorded_erases (component : Option (List Nat)) (budget : Option Nat)
    (queued sub : Nat) :
    Erases (input.exploreRecorded component globals budget queued sub)
      (input.explore globals budget queued sub) := by
  unfold exploreRecorded explore
  exact (Erases.lift _).bind fun state => (Erases.lift _).bind fun exploration =>
    .record ((Erases.lift _).bind fun _ => .value _)

theorem attemptRecorded_erases (component : List Nat) (budget : Option Nat) (sub : Nat) :
    Erases (input.attemptRecorded component globals budget sub)
      (input.attempt globals budget sub) := by
  unfold attemptRecorded attempt
  refine (Erases.lift _).bind fun state => .branch ?_ (.value false)
  refine (Erases.lift _).bind fun _ => (Erases.lift _).bind fun started =>
    (input.exploreRecorded_erases globals _ budget _ sub).bind fun answer =>
      (Erases.lift _).bind fun _ => ?_
  cases answer.1 with
  | found outcome => exact (Erases.lift _).bind fun _ => .value true
  | blocked callee => exact .value false
  | limitExceeded => exact (Erases.lift _).bind fun _ => .value false

theorem attemptAllRecorded_erases (budget : Option Nat) (component : List Nat) :
    Erases (input.attemptAllRecorded globals budget component)
      (input.attemptAll globals budget component) :=
  .foldlM (fun _ sub => (input.attemptRecorded_erases globals component budget sub).bind fun _ =>
    .value _) false

theorem passRecorded_erases (budget : Option Nat) (component : List Nat) (rounds : Nat) :
    Erases (input.passRecorded globals budget component rounds)
      (input.pass globals budget component rounds) := by
  induction rounds with
  | zero => exact .value ()
  | succ rounds induction =>
      unfold passRecorded pass
      exact (input.attemptAllRecorded_erases globals budget component).bind fun progress =>
        .branch induction (.value ())

theorem passesRecorded_erases (component : List Nat) (budgets : List (Option Nat)) :
    Erases (input.passesRecorded globals component budgets)
      (input.passes globals component budgets) := by
  induction budgets with
  | nil => exact .value ()
  | cons budget budgets induction =>
      unfold passesRecorded passes
      exact (Erases.lift _).bind fun state => .branch
        ((input.passRecorded_erases globals budget component _).bind fun _ => induction) (.value ())

theorem solveComponentRecorded_erases (component : List Nat) :
    Erases (input.solveComponentRecorded globals component)
      (input.solveComponent globals component) :=
  (input.passesRecorded_erases globals component _).bind fun _ => .lift _

theorem refineOneRecorded_erases (sub : Nat) :
    Erases (input.refineOneRecorded globals sub) (input.refineOne globals sub) := by
  unfold refineOneRecorded refineOne
  refine (Erases.lift _).bind fun state => .branch ?_ (.value 0)
  refine (input.exploreRecorded_erases globals none _ 0 sub).bind fun answer => ?_
  cases answer.1 with
  | found outcome => exact .lift _
  | blocked callee => exact .value 0
  | limitExceeded => exact .value 0

theorem refineRoundRecorded_erases :
    Erases (input.refineRoundRecorded globals) (input.refineRound globals) :=
  .foldlM (fun _ sub => (input.refineOneRecorded_erases globals sub).bind fun _ => .value _) 0

theorem refineRecorded_erases (rounds : Nat) :
    Erases (input.refineRecorded globals rounds) (input.refine globals rounds) := by
  induction rounds with
  | zero => exact .value ()
  | succ rounds induction =>
      unfold refineRecorded refine
      exact (input.refineRoundRecorded_erases globals).bind fun changes =>
        .branch induction (.value ())

/-- Without its record, recorded inference is the inference. -/
theorem inferRecorded_erases (layout : Layout) :
    Erases (input.inferRecorded layout) (input.infer layout) := by
  unfold inferRecorded infer
  refine (Erases.lift _).bind fun state => (Erases.lift _).bind fun before =>
    (Erases.forM fun component => input.solveComponentRecorded_erases _ component).bind fun _ => ?_
  have rest : ∀ globals, Erases
      (do
        input.refineRecorded globals input.limits.refinementRounds
        let state ← (get : Infer InferenceState)
        return ⟨state.protos, globals, state.failures⟩ : Recorded Inference)
      (do
        input.refine globals input.limits.refinementRounds
        let state ← get
        return ⟨state.protos, globals, state.failures⟩ : Infer Inference) := by
    intro globals
    exact (input.refineRecorded_erases globals _).bind fun _ => (Erases.lift _).bind fun _ =>
      .value _
  cases before with
  | some globals => exact rest globals
  | none => exact (Erases.lift _).bind fun state => (Erases.lift _).bind fun again => rest _

end InferenceInput
end NwScript
