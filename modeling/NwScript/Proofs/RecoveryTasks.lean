import Mathlib.Logic.Relation
import NwScript.Proofs.SoundRecovery

/-!
# Tasks of a recovery

The recovery of a subroutine as a list of tasks.  Doing the first part of a task leaves some tasks in
its place, and each part opens or closes at most one scope.  What the tasks that are left do to the
state that has been reached is what the recovery does.
-/

namespace NwScript
namespace Recover

/-- Something that a recovery has to do. -/
inductive Task where
  /-- Visit an instruction, unless it is dead or the subroutine has ended. -/
  | visit (command : Nat)
  /-- Close the scopes that end at or before a position, at most `count` of them. -/
  | close (position count : Nat)
  /-- Enter the case of the innermost open switch that holds a position. -/
  | enterCase (position : Nat)
  /-- Open the loops that begin at an instruction. -/
  | openLoops (command : Nat)
  /-- Open the outermost of the loops that begin at the current instruction. -/
  | openOuterLoop (latch : Nat)
  /-- Open the loops inside it. -/
  | openInnerLoops (latches : List Nat)
  /-- Execute an instruction. -/
  | execute (command : Nat)
  /-- Close everything and return what nothing has returned yet. -/
  | complete
  /-- Return what nothing has returned yet. -/
  | returnRest
  deriving DecidableEq, Repr

namespace Task

/-- Do a task. -/
def perform (input : RecoveryInput) : Task → Recover Unit
  | visit command => visitAll input [command]
  | close position count => closeScopesFrom position count
  | enterCase position => Recover.enterCase position
  | openLoops command => Recover.openLoops input command
  | openOuterLoop latch => Recover.openOuterLoop input latch
  | openInnerLoops latches => Recover.openInnerLoops input latches
  | execute command => do
      let track := (← get).track
      modify fun recovery => { recovery with track := none }
      Recover.execute input command track
  | complete => Recover.complete
  | returnRest => do if (← get).pendingReturn.isSome then returnPending

/-- Do the first part of a task and give the tasks that take its place. -/
def advance (input : RecoveryInput) : Task → Recover (List Task)
  | visit command => do
      if (← get).finished then
        return []
      else if ← (input.table.isDead command : Except Fault _) then
        return []
      else
        let position := input.program.position command
        modify fun recovery => { recovery with position }
        return [close position (2 * (← get).scopes.length), enterCase position, openLoops command,
          execute command]
  | close _ 0 => return []
  | close position (count + 1) => do
      let recovery ← get
      match recovery.scopes with
      | [] => return []
      | scope :: outer =>
          let limit := recovery.limit scope.node
          if limit ≤ position then
            closeScope scope outer limit
            return [close position count]
          else
            return []
  | openLoops command => do
      let origins ← (input.table.origins command : Except Fault _)
      let found ← (latches input (← get).position origins : Except Fault _)
      match found.mergeSort fun left right =>
          input.program.position right ≤ input.program.position left with
      | [] => return []
      | outer :: inner => return [openOuterLoop outer, openInnerLoops inner]
  | openInnerLoops [] => return []
  | openInnerLoops (latch :: latches) => do
      Recover.openInnerLoops input [latch]
      return [openInnerLoops latches]
  | complete => do
      return [close Recovery.lastPosition (2 * (← get).scopes.length),
        enterCase Recovery.lastPosition, returnRest]
  | task => do
      perform input task
      return []

end Task

/-- Do some tasks. -/
def performAll (input : RecoveryInput) : List Task → Recover Unit
  | [] => pure ()
  | task :: tasks => do
      task.perform input
      performAll input tasks

section Performing

variable {input : RecoveryInput} {before after : Recovery}

theorem performAll_append (input : RecoveryInput) (tasks more : List Task) :
    performAll input (tasks ++ more) = (do
      performAll input tasks
      performAll input more) := by
  induction tasks with
  | nil => rfl
  | cons task tasks induction =>
      rw [List.cons_append, performAll, performAll, induction, bind_assoc]

theorem performAll_singleton (input : RecoveryInput) (task : Task) :
    performAll input [task] = task.perform input := by
  rw [performAll]
  exact bind_pure (task.perform input)

/-- Nothing is visited behind the end of a subroutine. -/
theorem visitAll_of_finished (finished : before.finished = true) (commands : List Nat) :
    (visitAll input commands).run before = .ok ((), before) := by
  cases commands with
  | nil => rfl
  | cons command commands =>
      show (if (!before.finished) = true then _ else pure () : Recover Unit).run before = _
      rw [finished]
      rfl

/-- Before the end of a subroutine an instruction is visited unless it is dead. -/
theorem visitAll_of_unfinished (unfinished : before.finished = false) (command : Nat)
    (commands : List Nat) :
    (visitAll input (command :: commands)).run before = (do
      if ← (input.table.isDead command : Except Fault _) then pure () else visit input command
      visitAll input commands : Recover Unit).run before := by
  show (if (!before.finished) = true then _ else pure () : Recover Unit).run before = _
  rw [unfinished]
  cases input.table.isDead command with
  | error fault => rfl
  | ok dead => cases dead <;> rfl

/-- Instructions are visited one by one. -/
theorem visitAll_cons (input : RecoveryInput) (command : Nat) (commands : List Nat) :
    visitAll input (command :: commands) = (do
      visitAll input [command]
      visitAll input commands) := by
  refine StateT.ext fun before => ?_
  cases finished : before.finished with
  | true =>
      rw [visitAll_of_finished finished, StateT.run_bind, visitAll_of_finished finished]
      exact (visitAll_of_finished finished _).symm
  | false =>
      rw [StateT.run_bind, visitAll_of_unfinished finished, visitAll_of_unfinished finished]
      cases input.table.isDead command with
      | error fault => rfl
      | ok dead =>
          cases dead with
          | true => rfl
          | false =>
              show (visit input command >>= fun _ => visitAll input commands).run before =
                ((visit input command >>= fun _ => pure ()).run before).bind
                  fun value => (visitAll input commands).run value.2
              rw [bind_pure_unit]
              rfl

/-- A task that is done at once leaves nothing. -/
theorem bind_performAll_nil (input : RecoveryInput) (step : Recover Unit) :
    (do
      step
      return []) >>= performAll input = step := by
  rw [bind_assoc]
  exact bind_pure_unit

/-- A visit closes and enters scopes, opens loops and executes the instruction. -/
theorem visit_eq_performAll (input : RecoveryInput) (command : Nat) :
    visit input command = (do
      modify fun recovery => { recovery with position := input.program.position command }
      let recovery ← get
      performAll input [.close (input.program.position command) (2 * recovery.scopes.length),
        .enterCase (input.program.position command), .openLoops command, .execute command]) := by
  rw [visit, closeScopes]
  refine bind_congr fun _ => ?_
  rw [bind_assoc]
  refine bind_congr fun recovery => ?_
  rw [bind_assoc]
  refine bind_congr fun _ => bind_congr fun _ => bind_congr fun _ => ?_
  exact (performAll_singleton input (.execute command)).symm

theorem perform_visit (input : RecoveryInput) (command : Nat) :
    (Task.visit command).perform input = (Task.visit command).advance input >>= performAll input := by
  refine StateT.ext fun before => ?_
  rw [StateT.run_bind]
  show (visitAll input [command]).run before = _
  cases finished : before.finished with
  | true =>
      rw [visitAll_of_finished finished]
      show _ = ((if before.finished = true then return [] else _ : Recover (List Task)).run
        before).bind fun value => (performAll input value.1).run value.2
      rw [finished]
      rfl
  | false =>
      rw [visitAll_of_unfinished finished]
      show _ = ((if before.finished = true then return [] else _ : Recover (List Task)).run
        before).bind fun value => (performAll input value.1).run value.2
      rw [finished]
      cases input.table.isDead command with
      | error fault => rfl
      | ok dead =>
          cases dead with
          | true => rfl
          | false =>
              show (visit input command >>= fun _ => pure ()).run before = _
              rw [bind_pure_unit, visit_eq_performAll]
              rfl

theorem perform_close (input : RecoveryInput) (position count : Nat) :
    (Task.close position count).perform input =
      (Task.close position count).advance input >>= performAll input := by
  cases count with
  | zero => rfl
  | succ count =>
      show closeScopesFrom position (count + 1) = (do
        let recovery ← get
        match recovery.scopes with
        | [] => return []
        | scope :: outer =>
            if recovery.limit scope.node ≤ position then
              closeScope scope outer (recovery.limit scope.node)
              return [.close position count]
            else return [] : Recover (List Task)) >>= performAll input
      rw [closeScopesFrom, bind_assoc]
      refine bind_congr fun recovery => ?_
      cases recovery.scopes with
      | nil => rfl
      | cons scope outer =>
          dsimp only
          split
          · rw [bind_assoc]
            refine bind_congr fun _ => ?_
            rw [pure_bind, performAll_singleton]
            rfl
          · rfl

theorem perform_openLoops (input : RecoveryInput) (command : Nat) :
    (Task.openLoops command).perform input =
      (Task.openLoops command).advance input >>= performAll input := by
  show openLoops input command = (do
    let origins ← (input.table.origins command : Except Fault _)
    let found ← (latches input (← get).position origins : Except Fault _)
    match found.mergeSort fun left right =>
        input.program.position right ≤ input.program.position left with
    | [] => return []
    | outer :: inner => return [.openOuterLoop outer, .openInnerLoops inner] :
      Recover (List Task)) >>= performAll input
  rw [openLoops, bind_assoc]
  refine bind_congr fun origins => ?_
  rw [bind_assoc]
  refine bind_congr fun recovery => ?_
  rw [bind_assoc]
  refine bind_congr fun found => ?_
  cases found.mergeSort fun left right =>
      input.program.position right ≤ input.program.position left with
  | nil => rfl
  | cons outer inner =>
      dsimp only
      rw [pure_bind, performAll, performAll_singleton]
      rfl

theorem perform_openInnerLoops (input : RecoveryInput) (latches : List Nat) :
    (Task.openInnerLoops latches).perform input =
      (Task.openInnerLoops latches).advance input >>= performAll input := by
  cases latches with
  | nil => rfl
  | cons latch latches =>
      show openInnerLoops input (latch :: latches) = (do
        openInnerLoops input [latch]
        return [.openInnerLoops latches] : Recover (List Task)) >>= performAll input
      have rest : pure [Task.openInnerLoops latches] >>= performAll input =
          openInnerLoops input latches := by
        rw [pure_bind, performAll_singleton]
        rfl
      rw [openInnerLoops, openInnerLoops, bind_assoc, bind_assoc, rest]
      refine bind_congr fun isTail => ?_
      cases isTail with
      | false => rfl
      | true => rfl

/-- A task is done by doing its first part and the tasks that take its place. -/
theorem perform_eq_advance (input : RecoveryInput) (task : Task) :
    task.perform input = task.advance input >>= performAll input := by
  cases task with
  | visit command => exact perform_visit input command
  | close position count => exact perform_close input position count
  | openLoops command => exact perform_openLoops input command
  | openInnerLoops latches => exact perform_openInnerLoops input latches
  | complete =>
      show complete = (do
        let recovery ← get
        return [.close Recovery.lastPosition (2 * recovery.scopes.length),
          .enterCase Recovery.lastPosition, .returnRest] : Recover (List Task)) >>= performAll input
      rw [complete, closeScopes, bind_assoc, bind_assoc]
      refine bind_congr fun recovery => ?_
      rw [bind_assoc, pure_bind]
      refine bind_congr fun _ => bind_congr fun _ => ?_
      exact (performAll_singleton input .returnRest).symm
  | _ => exact (bind_performAll_nil input _).symm

end Performing

/-- The first part of the next task is done. -/
inductive Step (input : RecoveryInput) : Recovery × List Task → Recovery × List Task → Prop
  /-- The tasks that take its place come before the others. -/
  | advance {task : Task} {tasks more : List Task} {before after : Recovery}
      (runs : Runs (task.advance input) before more after) :
      Step input (before, task :: tasks) (after, more ++ tasks)

/-- What the first part of each task can do. -/
inductive Advances (input : RecoveryInput) (before : Recovery) : Task → List Task → Recovery → Prop
  /-- A dead instruction, or one behind the end of the subroutine, is skipped. -/
  | skip (command : Nat) : Advances input before (.visit command) [] before
  /-- Before an instruction is executed, scopes are closed and opened. -/
  | visit (command : Nat) : Advances input before (.visit command)
      [.close (input.program.position command) (2 * before.scopes.length),
        .enterCase (input.program.position command), .openLoops command, .execute command]
      { before with position := input.program.position command }
  /-- No scope is left that ends at or before the position. -/
  | closed (position count : Nat) : Advances input before (.close position count) [] before
  /-- The innermost scope is closed. -/
  | close {position count : Nat} {scope : Scope} {outer : List Scope} {after : Recovery}
      (scopes : before.scopes = scope :: outer) (ended : before.limit scope.node ≤ position)
      (runs : Runs (closeScope scope outer (before.limit scope.node)) before () after) :
      Advances input before (.close position (count + 1)) [.close position count] after
  /-- The case that holds a position is entered, if there is one. -/
  | enterCase {position : Nat} {after : Recovery}
      (runs : Runs (Recover.enterCase position) before () after) :
      Advances input before (.enterCase position) [] after
  /-- No loop begins here. -/
  | noLoops (command : Nat) : Advances input before (.openLoops command) [] before
  /-- The loops that begin here are sorted by their ends. -/
  | openLoops (command outer : Nat) (inner : List Nat) : Advances input before (.openLoops command)
      [.openOuterLoop outer, .openInnerLoops inner] before
  /-- The outermost of them is opened. -/
  | openOuterLoop {latch : Nat} {after : Recovery}
      (runs : Runs (Recover.openOuterLoop input latch) before () after) :
      Advances input before (.openOuterLoop latch) [] after
  /-- No loop is left to be opened. -/
  | noInnerLoops : Advances input before (.openInnerLoops []) [] before
  /-- The next one of them is opened. -/
  | openInnerLoop {latch : Nat} {latches : List Nat} {after : Recovery}
      (runs : Runs (Recover.openInnerLoops input [latch]) before () after) :
      Advances input before (.openInnerLoops (latch :: latches)) [.openInnerLoops latches] after
  /-- An instruction is executed. -/
  | execute {command : Nat} {after : Recovery}
      (runs : Runs (Recover.execute input command before.track) { before with track := none } () after) :
      Advances input before (.execute command) [] after
  /-- Everything is closed in the end. -/
  | complete : Advances input before .complete
      [.close Recovery.lastPosition (2 * before.scopes.length), .enterCase Recovery.lastPosition,
        .returnRest] before
  /-- What is left is returned. -/
  | returnRest {after : Recovery} (runs : Runs (Task.returnRest.perform input) before () after) :
      Advances input before .returnRest [] after

section Advancing

variable {input : RecoveryInput} {task : Task} {tasks more : List Task} {before after : Recovery}

/-- A step without a result that leaves no tasks. -/
theorem Runs.of_done {step : Recover Unit} (runs : Runs (do
      step
      return ([] : List Task)) before more after) : more = [] ∧ Runs step before () after := by
  obtain ⟨_, middle, stepped, last⟩ := runs.split
  cases last
  exact ⟨rfl, stepped⟩

theorem advances_of_visit {command : Nat}
    (runs : Runs ((Task.visit command).advance input) before more after) :
    Advances input before (.visit command) more after := by
  have rest := runs.rest (.reads before)
  dsimp only at rest
  split at rest
  · cases rest
    exact .skip command
  · cases dead : input.table.isDead command with
    | error fault =>
        rw [dead] at rest
        cases rest
    | ok state =>
        rw [dead] at rest
        cases state with
        | true =>
            cases rest
            exact .skip command
        | false =>
            cases rest
            exact .visit command

theorem advances_of_close {position count : Nat}
    (runs : Runs ((Task.close position count).advance input) before more after) :
    Advances input before (.close position count) more after := by
  cases count with
  | zero =>
      cases runs
      exact .closed position 0
  | succ count =>
      have rest := runs.rest (.reads before)
      cases scopes : before.scopes with
      | nil =>
          rw [scopes] at rest
          cases rest
          exact .closed position (count + 1)
      | cons scope outer =>
          rw [scopes] at rest
          dsimp only at rest
          split at rest
          · rename_i ended
            obtain ⟨_, closed, closing, last⟩ := rest.split
            cases last
            exact .close scopes ended closing
          · cases rest
            exact .closed position (count + 1)

theorem advances_of_openLoops {command : Nat}
    (runs : Runs ((Task.openLoops command).advance input) before more after) :
    Advances input before (.openLoops command) more after := by
  cases known : input.table.origins command with
  | error fault =>
      rw [Task.advance, known] at runs
      cases runs
  | ok origins =>
      have rest := (runs.rest (.lift known before)).rest (.reads before)
      cases searched : latches input before.position origins with
      | error fault =>
          rw [searched] at rest
          cases rest
      | ok found =>
          have opens := rest.rest (.lift searched before)
          split at opens
          · cases opens
            exact .noLoops command
          · cases opens
            exact .openLoops command _ _

/-- Whatever the first part of a task does is one of these. -/
theorem advances_of_runs (runs : Runs (task.advance input) before more after) :
    Advances input before task more after := by
  cases task with
  | visit command => exact advances_of_visit runs
  | close position count => exact advances_of_close runs
  | enterCase position =>
      obtain ⟨rfl, entered⟩ := Runs.of_done runs
      exact .enterCase entered
  | openLoops command => exact advances_of_openLoops runs
  | openOuterLoop latch =>
      obtain ⟨rfl, opened⟩ := Runs.of_done runs
      exact .openOuterLoop opened
  | openInnerLoops latches =>
      cases latches with
      | nil =>
          cases runs
          exact .noInnerLoops
      | cons latch latches =>
          obtain ⟨_, opened, opening, last⟩ := Runs.split runs
          cases last
          exact .openInnerLoop opening
  | execute command =>
      obtain ⟨rfl, executed⟩ := Runs.of_done runs
      exact .execute ((executed.rest (.reads before)).rest (.changes _ before))
  | complete =>
      cases runs
      exact .complete
  | returnRest =>
      obtain ⟨rfl, returned⟩ := Runs.of_done runs
      exact .returnRest returned

end Advancing

/-- Some tasks are done step by step, whatever is left behind them. -/
def Settles (input : RecoveryInput) (tasks : List Task) : Prop :=
  ∀ ⦃before after⦄, Runs (performAll input tasks) before () after → ∀ rest : List Task,
    Relation.ReflTransGen (Step input) (before, tasks ++ rest) (after, rest)

namespace Settles

variable {input : RecoveryInput} {task : Task} {tasks : List Task}

theorem nil (input : RecoveryInput) : Settles input [] := by
  rintro _ _ ⟨⟩ rest
  exact .refl

/-- A task is done by its first part and the tasks that take its place. -/
theorem cons (first : ∀ ⦃before more after⦄, Advances input before task more after →
    Settles input more) (rest : Settles input tasks) : Settles input (task :: tasks) := by
  intro before after runs behind
  obtain ⟨_, middle, performed, last⟩ := Runs.split runs
  rw [perform_eq_advance] at performed
  obtain ⟨more, begun, advanced, ended⟩ := performed.split
  have begins := first (advances_of_runs advanced) ended (tasks ++ behind)
  exact .head (.advance advanced) (begins.trans (rest last behind))

theorem close (position count : Nat) (rest : Settles input tasks) :
    Settles input (.close position count :: tasks) := by
  induction count generalizing tasks with
  | zero =>
      refine cons (fun before more after advances => ?_) rest
      cases advances
      exact nil input
  | succ count induction =>
      refine cons (fun before more after advances => ?_) rest
      cases advances with
      | closed => exact nil input
      | close => exact induction (nil input)

theorem openInnerLoops (latches : List Nat) (rest : Settles input tasks) :
    Settles input (.openInnerLoops latches :: tasks) := by
  induction latches generalizing tasks with
  | nil =>
      refine cons (fun before more after advances => ?_) rest
      cases advances
      exact nil input
  | cons latch latches induction =>
      refine cons (fun before more after advances => ?_) rest
      cases advances
      exact induction (nil input)

theorem openOuterLoop (latch : Nat) (rest : Settles input tasks) :
    Settles input (.openOuterLoop latch :: tasks) := by
  refine cons (fun before more after advances => ?_) rest
  cases advances
  exact nil input

theorem openLoops (command : Nat) (rest : Settles input tasks) :
    Settles input (.openLoops command :: tasks) := by
  refine cons (fun before more after advances => ?_) rest
  cases advances with
  | noLoops => exact nil input
  | openLoops _ outer inner => exact openOuterLoop outer (openInnerLoops inner (nil input))

theorem enterCase (position : Nat) (rest : Settles input tasks) :
    Settles input (.enterCase position :: tasks) := by
  refine cons (fun before more after advances => ?_) rest
  cases advances
  exact nil input

theorem execute (command : Nat) (rest : Settles input tasks) :
    Settles input (.execute command :: tasks) := by
  refine cons (fun before more after advances => ?_) rest
  cases advances
  exact nil input

theorem visit (command : Nat) (rest : Settles input tasks) :
    Settles input (.visit command :: tasks) := by
  refine cons (fun before more after advances => ?_) rest
  cases advances with
  | skip => exact nil input
  | visit => exact close _ _ (enterCase _ (openLoops command (execute command (nil input))))

end Settles

end Recover

namespace RecoveryInput

open Recover

variable {input : RecoveryInput} {sub : Nat} {state : Recovery} {task : Task} {tasks : List Task}

/-- What the recovery of a subroutine has to do. -/
def agenda (input : RecoveryInput) (sub : Nat) : List Task :=
  (input.program.body sub).map .visit ++ [.complete]

/-- The recovery of a subroutine passes through a state, with some tasks left. -/
def Passes (input : RecoveryInput) (sub : Nat) (state : Recovery) (tasks : List Task) : Prop :=
  Relation.ReflTransGen (Step input) (input.start sub, input.agenda sub) (state, tasks)

theorem performAll_map_visit (input : RecoveryInput) (commands : List Nat) :
    performAll input (commands.map .visit) = visitAll input commands := by
  induction commands with
  | nil => rfl
  | cons command commands induction =>
      rw [List.map_cons, performAll, induction, visitAll_cons]
      rfl

/-- The tasks that are left do what is left of the recovery. -/
theorem run_eq_of_passes (passes : input.Passes sub state tasks) :
    input.run sub = ((performAll input tasks).run state).map (·.2) := by
  have whole : ∀ {reached : Recovery × List Task},
      Relation.ReflTransGen (Step input) (input.start sub, input.agenda sub) reached →
        input.run sub = ((performAll input reached.2).run reached.1).map (·.2) := by
    intro reached path
    induction path with
    | refl =>
        show input.run sub = ((performAll input (_ ++ [.complete])).run (input.start sub)).map _
        rw [performAll_append, performAll_map_visit, performAll_singleton]
        show (((visitAll input (input.program.body sub) >>= fun _ => complete).run
          (input.start sub)).bind fun pair => .ok pair.2) =
            ((visitAll input (input.program.body sub) >>= fun _ => complete).run
              (input.start sub)).map (·.2)
        cases (visitAll input (input.program.body sub) >>= fun _ => complete).run
          (input.start sub) <;> rfl
    | tail _ step induction =>
        rw [induction]
        cases step with
        | @advance task tasks more before after runs =>
            show ((task.perform input >>= fun _ => performAll input tasks).run before).map _ =
              ((performAll input (more ++ tasks)).run after).map _
            rw [perform_eq_advance, bind_assoc, StateT.run_bind, runs, performAll_append]
            rfl
  exact whole passes

/-- A task whose first part fails fails the recovery. -/
theorem run_eq_error_of_passes (passes : input.Passes sub state (task :: tasks)) {fault : Fault}
    (fails : (task.advance input).run state = .error fault) : input.run sub = .error fault := by
  rw [run_eq_of_passes passes, performAll, perform_eq_advance, bind_assoc, StateT.run_bind, fails]
  rfl

/-- The state after a number of steps, with the tasks that are left. -/
def follow (input : RecoveryInput) : (steps : Nat) → Recovery × List Task →
    Except Fault (Recovery × List Task)
  | 0, reached => .ok reached
  | _ + 1, (state, []) => .ok (state, [])
  | steps + 1, (state, task :: tasks) => do
      let (more, after) ← (task.advance input).run state
      input.follow steps (after, more ++ tasks)

theorem passes_of_follow {steps : Nat}
    (followed : input.follow steps (input.start sub, input.agenda sub) = .ok (state, tasks)) :
    input.Passes sub state tasks := by
  have onward : ∀ {steps : Nat} {reached last : Recovery × List Task},
      input.follow steps reached = .ok last → Relation.ReflTransGen (Step input) reached last := by
    intro steps
    induction steps with
    | zero =>
        rintro reached last ⟨⟩
        exact .refl
    | succ steps induction =>
        rintro ⟨before, _ | ⟨task, tasks⟩⟩ last reached
        · cases reached
          exact .refl
        · rw [follow] at reached
          cases advanced : (task.advance input).run before with
          | error fault =>
              rw [advanced] at reached
              cases reached
          | ok pair =>
              rw [advanced] at reached
              exact .head (.advance advanced) (induction reached)
  exact onward followed

end RecoveryInput
end NwScript
