import NwScript.Proofs.FramedSteps
import NwScript.Proofs.StatementPlaces

/-!
# Frames throughout a recovery

Where no deferred argument begins, the open scopes frame the control flow in every state that a
recovery passes through.  When it is completed no scope is left, so the control flow is in order and
every loop has got its condition.
-/

namespace NwScript

namespace Recover

open ScriptTree Recovery RecoveryInput

variable {input : RecoveryInput} {sub action time : Nat} {before after : Recovery} {task : Task}
  {tasks more : List Task}

/-- No instruction of a subroutine saves the state for a deferred argument. -/
def IsDirect (input : RecoveryInput) (sub : Nat) : Prop :=
  ∀ command ∈ input.program.body sub, (input.program.opcode command).isStateSave = false

/-- What holds in every state that the recovery of a subroutine without deferred arguments passes
through. -/
structure IsSteady (input : RecoveryInput) (sub action time : Nat) (tasks : List Task)
    (recovery : Recovery) : Prop where
  /-- What is left to do is known. -/
  scheduled : Scheduled input sub time recovery tasks
  /-- What is open is in order. -/
  orderly : input.Orderly sub time [] recovery
  /-- Everything that is kept record of is there. -/
  sound : recovery.IsSound input.catalog
  /-- Statements have one place each. -/
  rooted : recovery.IsRooted action
  /-- The open scopes frame the control flow. -/
  framed : recovery.IsFramed time

/-- Where no state is saved no jump begins a deferred argument. -/
theorem IsDirect.skipsClosure (direct : IsDirect input sub) {command : Nat}
    (listed : command ∈ input.program.body sub) : input.skipsClosure command = false := by
  rw [Bool.eq_false_iff]
  intro skips
  obtain ⟨place, there, saves⟩ := exists_of_skipsClosure listed skips
  rw [direct place there] at saves
  cases saves

/-- What may happen where no deferred argument begins. -/
def direct (input : RecoveryInput) : Terms where
  catalog := input.catalog
  defers := False
  ends := True

/-- The first part of each task makes moves without deferred arguments. -/
theorem advance_plays (plain : IsDirect input sub)
    (scheduled : Scheduled input sub time before (task :: tasks))
    (sound : before.IsSound input.catalog) (runs : Runs (task.advance input) before more after) :
    ∃ ids, Plays (direct input) before ids after := by
  refine exists_plays_advance trivial ?_ sound runs
  rintro command rfl
  refine ⟨rfl, fun _ skips => ?_, fun _ _ => trivial⟩
  exact absurd skips (Bool.eq_false_iff.mp (plain.skipsClosure scheduled.executes.1))

section Framing

/-- A case that holds the time is entered. -/
theorem enterCase_framed (orderly : input.Orderly sub time [] before) (framed : before.IsFramed time)
    (runs : Runs (enterCase time) before () after) : after.IsFramed time := by
  have rest := runs.rest (.reads before)
  split at rest
  swap
  · cases rest
    exact framed
  rename_i case found
  cases rest
  obtain ⟨body, owns, -, lasts, plain⟩ := orderly.case_begun found
  have held : case ∈ before.tree.children before.current := by
    rw [Recovery.caseAt?] at found
    split at found
    · exact List.mem_of_find?_eq_some found
    · cases found
  refine framed.enter held ?_
  cases here : before.tree.node case with
  | case => rfl
  | block body' =>
      -- A block of locals has ended before anything else begins.
      have ended := framed.blocks held (by rw [here]; rfl)
      rw [Recovery.limit, Recovery.range, owns] at ended
      exact absurd lasts (Nat.not_lt.mpr ended)
  | branch | otherwise | whileLoop | doLoop | switch | closure =>
      rw [here] at plain
      cases plain
  | _ =>
      rw [here] at owns
      cases owns

/-- Where no deferred argument begins, the first part of each task keeps the frames. -/
theorem advance_framed (laid : input.program.IsLaidOut) (plain : IsDirect input sub)
    (command : input.catalog.IsCommand action)
    (steady : IsSteady input sub action time (task :: tasks) before)
    (runs : Runs (task.advance input) before more after) :
    after.IsFramed (task.ends input time) := by
  have framed := steady.framed
  cases advances_of_runs runs with
  | visit => exact framed.quiet (.note rfl rfl rfl)
  | close scopes ended closing => exact closeScope_framed framed scopes closing
  | enterCase entering =>
      obtain rfl := steady.scheduled.enters
      exact enterCase_framed steady.orderly framed entering
  | openOuterLoop opening => exact openOuterLoop_frames _ opening framed
  | openInnerLoop opening => exact openInnerLoops_frames _ opening framed
  | execute executing =>
      obtain ⟨listed, here⟩ := steady.scheduled.executes
      have sound : Recovery.IsSound input.catalog { before with track := none } :=
        { steady.sound with track := fun _ _ none_left => by cases none_left }
      have lasts := Nat.le_of_lt (laid.lt_positionAfter (Program.lt_of_mem_body listed))
      have started : IsFramed time { before with track := none } :=
        framed.quiet (.note rfl rfl rfl)
      exact execute_framed laid (fun _ => plain.skipsClosure listed) sound command
        { steady.rooted with } (started.later (here.trans_le lasts)) executing
  | returnRest returning =>
      exact Quiets.frames (fun _ => .reads (.ite (fun _ => returnPending_quiet) fun _ => .done ()))
        returning framed
  | _ => exact framed

/-- Each step keeps a recovery steady. -/
theorem IsSteady.advance (laid : input.program.IsLaidOut) (plain : IsDirect input sub)
    (command : input.catalog.IsCommand action)
    (steady : IsSteady input sub action time (task :: tasks) before)
    (runs : Runs (task.advance input) before more after) :
    ∃ last, IsSteady input sub action last (more ++ tasks) after := by
  obtain ⟨last, order, orderly, scheduled⟩ := steady.scheduled.advance laid steady.orderly runs
  obtain ⟨ids, plays⟩ := advance_plays plain steady.scheduled steady.sound runs
  exact ⟨last, scheduled, orderly, plays.isSound steady.sound,
    plays.isRooted steady.sound id command steady.rooted,
    (advance_framed laid plain command steady runs).later order⟩

end Framing

section Closing

end Closing

end Recover

namespace RecoveryInput

open Recover ScriptTree

variable {input : RecoveryInput} {sub action : Nat} {state last : Recovery} {tasks : List Task}

end RecoveryInput
end NwScript
