import Mathlib.Data.List.Induction
import NwScript.Prototype.Decisions

/-!
# Decision trees

What all walks through a subroutine decide forms a binary tree.  Following the tree as a queue says,
and then backtracking, visits the leaves one after the other: falling through comes before jumping.
The decisions that are recorded behind a walk are those of the path to its leaf, so the next path is
found by flipping the last decision of this path that fell through.
-/

namespace NwScript

/-- The decisions of all walks and what each of them gives. -/
inductive DecisionTree (α : Type) where
  /-- A walk ends. -/
  | leaf (result : α)
  /-- A walk falls through at a jump or takes it. -/
  | node (command : Nat) (falls takes : DecisionTree α)

/-- One path comes before another one if it falls through where both first differ. -/
def Decision.Precedes (earlier later : List Decision) : Prop :=
  ∃ shared command before behind,
    earlier = shared ++ ⟨command, false⟩ :: before ∧ later = shared ++ ⟨command, true⟩ :: behind

namespace Decision

/-- The path behind a complete one: the last decision that fell through is flipped. -/
def nextPath : List Decision → Option (List Decision)
  | [] => none
  | decision :: later =>
      match nextPath later with
      | some next => some (decision :: next)
      | none => if decision.taken then none else some [{ decision with taken := true }]

/-- The decisions behind the last jump that a path takes, which are new in the walk along it. -/
def fresh (path : List Decision) : List Decision :=
  path.reverse.takeWhile (!·.taken)

/-- What the walk along a path adds to the decisions queued. -/
def cost (path : List Decision) : Nat :=
  max 1 (fresh path).length

/-- A path with another jump taken at its end has no new decision. -/
theorem fresh_append {recorded behind : List Decision}
    (ends : ∀ decision ∈ recorded.getLast?, decision.taken = true)
    (fallen : ∀ decision ∈ behind, decision.taken = false) :
    fresh (recorded ++ behind) = behind.reverse := by
  rw [fresh, List.reverse_append, List.takeWhile_append_of_pos (by simpa using fallen)]
  rw [← List.head?_reverse] at ends
  cases turned : recorded.reverse with
  | nil => simp
  | cons last before => simp [ends last (by rw [turned]; rfl)]

theorem nextPath_append_singleton (path : List Decision) (decision : Decision) :
    nextPath (path ++ [decision]) =
      if decision.taken then nextPath path
      else some (path ++ [{ decision with taken := true }]) := by
  induction path with
  | nil => rfl
  | cons first path induction =>
      rw [List.cons_append, nextPath, induction, nextPath]
      by_cases taken : decision.taken = true
      · rw [if_pos taken, if_pos taken]
      · rw [if_neg taken, if_neg taken]
        rfl

/-- The next path ends with a jump taken. -/
theorem taken_of_nextPath {path next : List Decision} (found : nextPath path = some next) :
    ∀ decision ∈ next.getLast?, decision.taken = true := by
  induction path using List.reverseRecOn with
  | nil => cases found
  | append_singleton path decision induction =>
      rw [nextPath_append_singleton] at found
      split at found
      · exact induction found
      · obtain rfl := Option.some.inj found
        simp

end Decision

namespace DecisionQueue

open Decision (nextPath)

/-- Backtracking leads to the next path. -/
theorem backtrack_eq (queue : DecisionQueue) :
    queue.backtrack = (nextPath queue.decisions.toList).elim (false, empty)
      fun next => (true, ⟨next.toArray, 0⟩) := by
  obtain ⟨⟨path⟩, cursor⟩ := queue
  unfold backtrack
  dsimp only
  induction path using List.reverseRecOn with
  | nil => simp [nextPath]
  | append_singleton path decision induction =>
      rw [Decision.nextPath_append_singleton]
      rw [List.popWhile_toArray] at induction ⊢
      rw [List.reverse_concat, List.dropWhile_cons]
      by_cases taken : decision.taken = true
      · rw [if_pos taken, if_pos taken]
        exact induction
      · rw [if_neg taken, if_neg taken]
        simp

/-- The queue of a walk that has replayed some of the recorded decisions. -/
def replaying (past later : List Decision) : DecisionQueue :=
  ⟨(past ++ later).toArray, past.length⟩

theorem replaying_inj {past other : List Decision} (same : replaying past [] = replaying other []) :
    past = other := by
  simpa [replaying] using congrArg (fun queue => queue.decisions.toList) same

/-- Deciding behind the recorded decisions falls through. -/
theorem decide_fresh (past : List Decision) (command : Nat) :
    (replaying past []).decide command = (false, replaying (past ++ [⟨command, false⟩]) []) := by
  simp [decide, replaying]

/-- Deciding at a recorded jump replays the decision. -/
theorem decide_recorded (past : List Decision) (decision : Decision) (later : List Decision) :
    (replaying past (decision :: later)).decide decision.command =
      (decision.taken, replaying (past ++ [decision]) later) := by
  simp [decide, replaying]

/-- Deciding at another jump than the recorded one forgets what was recorded. -/
theorem decide_stale (past : List Decision) {decision : Decision} (later : List Decision)
    {command : Nat} (stale : decision.command ≠ command) :
    (replaying past (decision :: later)).decide command =
      (false, replaying (past ++ [⟨command, false⟩]) []) := by
  simp [decide, replaying, stale]

end DecisionQueue

namespace DecisionTree

open Decision (nextPath)
open DecisionQueue (replaying)

variable {α : Type}

/-- A path that begins with one more decision. -/
def under (decision : Decision) (path : List Decision × α) : List Decision × α :=
  (decision :: path.1, path.2)

/-- The paths to the leaves, falling through before jumping, and what the leaves give. -/
def paths : DecisionTree α → List (List Decision × α)
  | leaf result => [([], result)]
  | node command falls takes =>
      falls.paths.map (under ⟨command, false⟩) ++ takes.paths.map (under ⟨command, true⟩)

/-- Follow the decisions of a queue down to a leaf. -/
def follow : DecisionTree α → DecisionQueue → α × DecisionQueue
  | leaf result, queue => (result, queue)
  | node command falls takes, queue =>
      if (queue.decide command).1 then takes.follow (queue.decide command).2
      else falls.follow (queue.decide command).2

/-- Some decisions lead to a place in the tree. -/
def Fits : DecisionTree α → List Decision → Prop
  | _, [] => True
  | leaf _, _ :: _ => False
  | node command falls takes, decision :: later =>
      decision.command = command ∧ if decision.taken then takes.Fits later else falls.Fits later

/-- The first path that begins with some decisions. -/
def first : DecisionTree α → List Decision → List Decision × α
  | leaf result, _ => ([], result)
  | node command falls _, [] => under ⟨command, false⟩ (falls.first [])
  | node _ falls takes, decision :: later =>
      under decision (if decision.taken then takes.first later else falls.first later)

/-- The paths that begin with some decisions or come behind them. -/
def pathsFrom : DecisionTree α → List Decision → List (List Decision × α)
  | leaf result, _ => [([], result)]
  | node command falls takes, [] => (node command falls takes).paths
  | node command falls takes, decision :: later =>
      if decision.taken then (takes.pathsFrom later).map (under ⟨command, true⟩)
      else
        (falls.pathsFrom later).map (under ⟨command, false⟩) ++
          takes.paths.map (under ⟨command, true⟩)

theorem pathsFrom_nil (tree : DecisionTree α) : tree.pathsFrom [] = tree.paths := by
  cases tree <;> rfl

theorem fits_nil (tree : DecisionTree α) : tree.Fits [] := by
  cases tree <;> trivial

/-- Starting without a decision is the same as falling through at the first jump. -/
theorem pathsFrom_node_nil (command : Nat) (falls takes : DecisionTree α) :
    (node command falls takes).pathsFrom [] =
      (node command falls takes).pathsFrom [⟨command, false⟩] := by
  simp [pathsFrom, paths, pathsFrom_nil]

/-- The first path that begins with some decisions falls through behind them. -/
theorem first_eq_append {tree : DecisionTree α} {pending : List Decision}
    (fits : tree.Fits pending) :
    ∃ behind, (tree.first pending).1 = pending ++ behind ∧
      ∀ decision ∈ behind, decision.taken = false := by
  induction tree generalizing pending with
  | leaf result =>
      cases pending with
      | nil => exact ⟨[], rfl, by simp⟩
      | cons decision later => exact absurd fits not_false
  | node command falls takes falls_append takes_append =>
      cases pending with
      | nil =>
          obtain ⟨behind, same, fallen⟩ := falls_append falls.fits_nil
          exact ⟨⟨command, false⟩ :: behind, by rw [first, under, same]; rfl, by simpa using fallen⟩
      | cons decision later =>
          obtain ⟨rfl, fits⟩ := fits
          rw [first]
          split at fits
          · obtain ⟨behind, same, fallen⟩ := takes_append fits
            exact ⟨behind, by rw [if_pos ‹_›, under, same]; rfl, fallen⟩
          · obtain ⟨behind, same, fallen⟩ := falls_append fits
            exact ⟨behind, by rw [if_neg ‹_›, under, same]; rfl, fallen⟩

/-! ## Following a queue -/

/-- A walk along recorded decisions that fit ends at the first leaf behind them, and records the path
to it. -/
theorem follow_eq_first {tree : DecisionTree α} (past : List Decision) {pending : List Decision}
    (fits : tree.Fits pending) :
    tree.follow (replaying past pending) =
      ((tree.first pending).2, replaying (past ++ (tree.first pending).1) []) := by
  induction tree generalizing past pending with
  | leaf result =>
      cases pending with
      | nil => simp [follow, first]
      | cons decision later => exact absurd fits not_false
  | node command falls takes falls_eq takes_eq =>
      cases pending with
      | nil =>
          rw [follow, DecisionQueue.decide_fresh, if_neg Bool.false_ne_true, falls_eq _ falls.fits_nil,
            List.append_assoc]
          rfl
      | cons decision later =>
          obtain ⟨rfl, fits⟩ := fits
          rw [follow, DecisionQueue.decide_recorded, first]
          split at fits
          · rename_i taken
            rw [if_pos taken, if_pos taken, takes_eq _ fits, List.append_assoc]
            rfl
          · rename_i fallen
            rw [if_neg fallen, if_neg fallen, falls_eq _ fits, List.append_assoc]
            rfl

/-- Behind the first path that begins with some decisions come the paths from the next one on. -/
theorem pathsFrom_eq_cons {tree : DecisionTree α} {pending : List Decision}
    (fits : tree.Fits pending) :
    tree.pathsFrom pending =
        tree.first pending :: (nextPath (tree.first pending).1).elim [] tree.pathsFrom ∧
      ∀ next, nextPath (tree.first pending).1 = some next → tree.Fits next := by
  induction tree generalizing pending with
  | leaf result => exact ⟨rfl, by rintro _ ⟨⟩⟩
  | node command falls takes falls_eq takes_eq =>
      have fallen : ∀ later, falls.Fits later →
          (node command falls takes).pathsFrom (⟨command, false⟩ :: later) =
              under ⟨command, false⟩ (falls.first later) ::
                (nextPath (⟨command, false⟩ :: (falls.first later).1)).elim []
                  (node command falls takes).pathsFrom ∧
            ∀ next, nextPath (⟨command, false⟩ :: (falls.first later).1) = some next →
              (node command falls takes).Fits next := by
        intro later fits
        obtain ⟨listed, following⟩ := falls_eq fits
        rw [pathsFrom, if_neg Bool.false_ne_true, listed, nextPath]
        cases found : nextPath (falls.first later).1 with
        | some next =>
            refine ⟨by simp [pathsFrom], ?_⟩
            rintro _ ⟨⟩
            exact ⟨rfl, following next found⟩
        | none =>
            refine ⟨by simp [pathsFrom, pathsFrom_nil], ?_⟩
            rintro _ ⟨⟩
            exact ⟨rfl, takes.fits_nil⟩
      have taken : ∀ later, takes.Fits later →
          (node command falls takes).pathsFrom (⟨command, true⟩ :: later) =
              under ⟨command, true⟩ (takes.first later) ::
                (nextPath (⟨command, true⟩ :: (takes.first later).1)).elim []
                  (node command falls takes).pathsFrom ∧
            ∀ next, nextPath (⟨command, true⟩ :: (takes.first later).1) = some next →
              (node command falls takes).Fits next := by
        intro later fits
        obtain ⟨listed, following⟩ := takes_eq fits
        rw [pathsFrom, if_pos rfl, listed, nextPath]
        cases found : nextPath (takes.first later).1 with
        | some next =>
            refine ⟨by simp [pathsFrom], ?_⟩
            rintro _ ⟨⟩
            exact ⟨rfl, following next found⟩
        | none => exact ⟨by simp, by rintro _ ⟨⟩⟩
      cases pending with
      | nil =>
          rw [pathsFrom_node_nil]
          exact fallen [] falls.fits_nil
      | cons decision later =>
          obtain ⟨command, way⟩ := decision
          obtain ⟨rfl, fits⟩ := fits
          cases way with
          | false => exact fallen later fits
          | true => exact taken later fits

/-! ## The order of the paths -/

theorem precedes_cons (decision : Decision) {earlier later : List Decision}
    (precedes : Decision.Precedes earlier later) :
    Decision.Precedes (decision :: earlier) (decision :: later) := by
  obtain ⟨shared, command, before, behind, rfl, rfl⟩ := precedes
  exact ⟨decision :: shared, command, before, behind, rfl, rfl⟩

/-- Falling through comes before jumping. -/
theorem pairwise_paths (tree : DecisionTree α) :
    tree.paths.Pairwise fun earlier later => Decision.Precedes earlier.1 later.1 := by
  induction tree with
  | leaf result => exact List.pairwise_singleton _ _
  | node command falls takes falls_sorted takes_sorted =>
      rw [paths, List.pairwise_append, List.pairwise_map, List.pairwise_map]
      refine ⟨falls_sorted.imp (precedes_cons _), takes_sorted.imp (precedes_cons _), ?_⟩
      intro earlier fallen later taken
      obtain ⟨before, _, rfl⟩ := List.mem_map.mp fallen
      obtain ⟨behind, _, rfl⟩ := List.mem_map.mp taken
      exact ⟨[], command, before.1, behind.1, rfl, rfl⟩

/-- A path to a leaf fits, and nothing is added to it. -/
theorem fits_of_mem {tree : DecisionTree α} {path : List Decision × α} (listed : path ∈ tree.paths) :
    tree.Fits path.1 ∧ tree.first path.1 = path := by
  induction tree generalizing path with
  | leaf result =>
      rw [paths, List.mem_singleton] at listed
      subst listed
      exact ⟨trivial, rfl⟩
  | node command falls takes falls_fits takes_fits =>
      rcases List.mem_append.mp listed with fallen | taken
      · obtain ⟨rest, inside, rfl⟩ := List.mem_map.mp fallen
        obtain ⟨fits, same⟩ := falls_fits inside
        exact ⟨⟨rfl, fits⟩, by rw [under, first, if_neg Bool.false_ne_true, same]; rfl⟩
      · obtain ⟨rest, inside, rfl⟩ := List.mem_map.mp taken
        obtain ⟨fits, same⟩ := takes_fits inside
        exact ⟨⟨rfl, fits⟩, by rw [under, first, if_pos rfl, same]; rfl⟩

/-- A walk adds to what it has replayed. -/
theorem prefix_of_follow {tree : DecisionTree α} {past recorded : List Decision} {result : α}
    (went : tree.follow (replaying past []) = (result, replaying recorded [])) : past <+: recorded := by
  rw [follow_eq_first past tree.fits_nil] at went
  exact ⟨_, DecisionQueue.replaying_inj (Prod.mk.inj went).2⟩

/-- A walk that uses up the recorded decisions and records no others went along a path to a leaf. -/
theorem mem_paths_of_follow {tree : DecisionTree α} (past : List Decision)
    {pending : List Decision} {result : α}
    (went : tree.follow (replaying past pending) = (result, replaying (past ++ pending) [])) :
    (pending, result) ∈ tree.paths := by
  induction tree generalizing past pending with
  | leaf given =>
      obtain ⟨rfl, same⟩ := Prod.mk.inj went
      have length := congrArg DecisionQueue.cursor same
      have empty : pending = [] := by simpa [replaying] using length
      rw [empty]
      exact List.mem_singleton.mpr rfl
  | node command falls takes falls_mem takes_mem =>
      cases pending with
      | nil =>
          rw [follow, DecisionQueue.decide_fresh, if_neg Bool.false_ne_true] at went
          have longer := (prefix_of_follow went).length_le
          simp only [List.length_append, List.length_singleton, List.length_nil] at longer
          omega
      | cons decision later =>
          by_cases same : decision.command = command
          · subst same
            rw [follow, DecisionQueue.decide_recorded, List.append_cons past decision later] at went
            by_cases taken : decision.taken = true
            · rw [if_pos taken] at went
              refine List.mem_append_right _ (List.mem_map.mpr ⟨_, takes_mem _ went, ?_⟩)
              rw [under, ← taken]
            · rw [if_neg taken] at went
              refine List.mem_append_left _ (List.mem_map.mpr ⟨_, falls_mem _ went, ?_⟩)
              rw [under, ← Bool.not_eq_true _ |>.mp taken]
          · -- The recorded decision is stale, so the walk records another one in its place.
            rw [follow, DecisionQueue.decide_stale _ _ same, if_neg Bool.false_ne_true] at went
            have shared := prefix_of_follow went
            rw [List.prefix_append_right_inj] at shared
            obtain ⟨rest, equal⟩ := shared
            exact absurd (congrArg Decision.command (List.cons.inj equal).1).symm same

/-- The paths are the decisions that drive a walk from the root to a leaf. -/
theorem mem_paths_iff {tree : DecisionTree α} {path : List Decision} {result : α} :
    (path, result) ∈ tree.paths ↔
      tree.follow (replaying [] path) = (result, replaying path []) := by
  constructor
  · intro listed
    obtain ⟨fits, same⟩ := fits_of_mem listed
    have went := follow_eq_first [] fits
    rw [same] at went
    exact went
  · exact mem_paths_of_follow []

end DecisionTree
end NwScript
