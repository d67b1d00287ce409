import NwScript.Typing.Inference

/-!
# Steps of type inference

What exploring a subroutine and trying to settle one do to the state of inference, as equations.
-/

namespace NwScript

namespace InferenceState

/-- The state once the search for the prototype of a subroutine has begun. -/
def begun (state : InferenceState) (sub : Nat) : InferenceState :=
  state.setProto sub { state.proto sub with status := .inProgress }

/-- The state once paths through a subroutine were tried. -/
def explored (state : InferenceState) (sub : Nat) (exploration : Exploration) : InferenceState :=
  let noted := state.setProto sub { state.proto sub with decisions := exploration.queue }
  { noted with queued := noted.queued.setIfInBounds sub exploration.queued }

end InferenceState

namespace InferenceInput

variable {state : InferenceState} {sub : Nat}

/-- What an attempt makes of the result of its exploration; says whether the subroutine is settled. -/
def conclude (input : InferenceInput) (sub : Nat) : PathResult → Infer Bool
  | .found outcome => do
      settle sub outcome
      return true
  | .blocked _ => return false
  | .limitExceeded => do
      modify (input.giveUp sub)
      return false

/-- Explore a subroutine once more and merge what is found, whether or not it may learn something; says
how much changed. -/
def refineAnyway (input : InferenceInput) (globals : List Ty) (sub : Nat) : Infer Nat := do
  match (← input.explore globals input.limits.refinementBudget 0 sub).1 with
  | .found outcome => merge sub outcome
  | _ => return 0

theorem refineOne_eq_ite (input : InferenceInput) (globals : List Ty) (sub : Nat) :
    input.refineOne globals sub = (do
      let state ← get
      if input.needsRefinement state sub then input.refineAnyway globals sub else return 0) := rfl

/-- An exploration reads the state and keeps the decisions of its last path. -/
theorem run_explore (input : InferenceInput) (globals : List Ty) (budget : Option Nat)
    (queued sub : Nat) (state : InferenceState) :
    (input.explore globals budget queued sub).run state =
      ((input.context state globals sub).explore budget input.limits.maxDecisions queued .empty).map
        fun exploration => ((exploration.result, exploration.queued),
          state.setProto sub { state.proto sub with decisions := exploration.queue }) := by
  unfold explore
  show ((liftM ((input.context state globals sub).explore budget input.limits.maxDecisions queued
    .empty) : Infer Exploration) >>= fun exploration => (do
      set (state.setProto sub { state.proto sub with decisions := exploration.queue })
      return (exploration.result, exploration.queued) : Infer (PathResult × Nat))).run state = _
  cases (input.context state globals sub).explore budget input.limits.maxDecisions queued .empty <;>
    rfl

/-- An attempt at an open subroutine begins its search, explores it and draws the conclusion. -/
theorem run_attempt {input : InferenceInput} (opened : state.isOpen sub = true) (globals : List Ty)
    (budget : Option Nat) :
    (input.attempt globals budget sub).run state =
      ((input.context (state.begun sub) globals sub).explore budget input.limits.maxDecisions
        (state.queued.getD sub 0) .empty).bind fun exploration =>
          (input.conclude sub exploration.result).run
            ((state.begun sub).explored sub exploration) := by
  have expanded : (input.attempt globals budget sub).run state =
      (do
        modify fun state => state.begun sub
        let answer ← input.explore globals budget ((← get).queued.getD sub 0) sub
        modify fun state => { state with queued := state.queued.setIfInBounds sub answer.2 }
        input.conclude sub answer.1 : Infer Bool).run state := by
    unfold attempt
    show (if state.isOpen sub then _ else _ : Infer Bool).run state = _
    rw [if_pos opened]
    rfl
  rw [expanded]
  show (input.explore globals budget (state.queued.getD sub 0) sub >>= fun answer => (do
    modify fun state => { state with queued := state.queued.setIfInBounds sub answer.2 }
    input.conclude sub answer.1 : Infer Bool)).run (state.begun sub) = _
  rw [StateT.run_bind, run_explore]
  cases (input.context (state.begun sub) globals sub).explore budget input.limits.maxDecisions
    (state.queued.getD sub 0) .empty <;> rfl

/-- An attempt at a subroutine that is not open does nothing. -/
theorem run_attempt_of_closed {input : InferenceInput} (closed : state.isOpen sub = false)
    (globals : List Ty) (budget : Option Nat) :
    (input.attempt globals budget sub).run state = .ok (false, state) := by
  unfold attempt
  show (if state.isOpen sub then _ else _ : Infer Bool).run state = _
  rw [closed]
  rfl

variable {input : InferenceInput} {globals : List Ty} {component : List Nat}

/-- No pass is made over a component without open members. -/
theorem run_passes_of_closed (closed : component.any state.isOpen = false)
    (budgets : List (Option Nat)) :
    (input.passes globals component budgets).run state = .ok ((), state) := by
  cases budgets with
  | nil => rfl
  | cons budget budgets =>
      unfold passes
      show (if component.any state.isOpen then _ else _ : Infer Unit).run state = _
      rw [closed]
      rfl

/-- No prototype is guessed that is known. -/
theorem run_guess_of_done (known : (state.proto sub).status = .done) :
    (input.guess sub).run state = .ok ((), state) := by
  unfold guess
  show (if !(state.proto sub).isPrototyped then _ else _ : Infer Unit).run state = _
  rw [if_neg (by simp [Prototype.isPrototyped, known])]
  rfl

/-- A component of one subroutine is solved once an attempt at it succeeds. -/
theorem run_solveComponent_of_attempt {settled : InferenceState} {budget : Option Nat}
    {budgets : List (Option Nat)} (limits : input.limits.passBudgets = budget :: budgets)
    (opened : state.isOpen sub = true)
    (attempted : (input.attempt globals budget sub).run state = .ok (true, settled))
    (known : (settled.proto sub).status = .done) :
    (input.solveComponent globals [sub]).run state = .ok ((), settled) := by
  have closed : settled.isOpen sub = false := by simp [InferenceState.isOpen, known]
  have once : (input.attemptAll globals budget [sub]).run state = .ok (true, settled) := by
    unfold attemptAll
    rw [List.foldlM_cons, StateT.run_bind, StateT.run_bind, attempted]
    rfl
  have again : (input.attemptAll globals budget [sub]).run settled = .ok (false, settled) := by
    unfold attemptAll
    rw [List.foldlM_cons, StateT.run_bind, StateT.run_bind, run_attempt_of_closed closed]
    rfl
  have passed : (input.pass globals budget [sub] 2).run state = .ok ((), settled) := by
    unfold pass
    rw [StateT.run_bind, once]
    show (input.pass globals budget [sub] 1).run settled = _
    unfold pass
    rw [StateT.run_bind, again]
    rfl
  have solved : (input.passes globals [sub] (budget :: budgets)).run state = .ok ((), settled) := by
    unfold passes
    show (if [sub].any state.isOpen then _ else _ : Infer Unit).run state = _
    rw [if_pos (by simp [opened]), StateT.run_bind]
    show (input.pass globals budget [sub] 2).run state >>= _ = _
    rw [passed]
    exact run_passes_of_closed (by simp [closed]) budgets
  unfold solveComponent
  rw [StateT.run_bind, limits, solved]
  show (input.guess sub >>= fun _ => pure () : Infer Unit).run settled = _
  rw [StateT.run_bind, run_guess_of_done known]
  rfl

end InferenceInput
end NwScript
