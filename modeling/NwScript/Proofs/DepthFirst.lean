import NwScript.Proofs.DecisionTrees

/-!
# Depth first through a tree

A search repeats one round: it goes back to the start of its queue, follows the queue down to a leaf and
backtracks.  What is recorded before a round fits the tree, so no decision of the round is about another
jump than the recorded one, and the round ends at the first leaf that is left.  Backtracking then leads to
the next path or, behind the last one, to nothing.
-/

namespace NwScript

theorem Decision.Precedes.ne {earlier later : List Decision} (precedes : Precedes earlier later) :
    earlier ≠ later := by
  obtain ⟨shared, command, before, behind, rfl, rfl⟩ := precedes
  intro same
  have decision := (List.cons.inj (List.append_cancel_left same)).1
  cases congrArg Decision.taken decision

/-- The next recorded decision is about another jump, so deciding drops it and all later ones. -/
def DecisionQueue.IsStale (queue : DecisionQueue) (command : Nat) : Prop :=
  ∃ decision ∈ queue.decisions[queue.cursor]?, decision.command ≠ command

namespace DecisionTree

open Decision (nextPath)
open DecisionQueue (replaying)

variable {α : Type} {tree : DecisionTree α}

/-- What the leaves give, from left to right. -/
def leaves : DecisionTree α → List α
  | leaf result => [result]
  | node _ falls takes => falls.leaves ++ takes.leaves

/-- The queues that are asked on the way to a leaf, each with the jump in question. -/
def questions : DecisionTree α → DecisionQueue → List (DecisionQueue × Nat)
  | leaf _, _ => []
  | node command falls takes, queue =>
      (queue, command) ::
        if (queue.decide command).1 then takes.questions (queue.decide command).2
        else falls.questions (queue.decide command).2

/-- One round of a search. -/
structure Round (α : Type) where
  /-- What was asked. -/
  questions : List (DecisionQueue × Nat)
  /-- What the leaf gives. -/
  result : α
  /-- The queue at the leaf. -/
  walked : DecisionQueue
  /-- Another path is left. -/
  goesOn : Bool
  /-- The queue of the next round. -/
  next : DecisionQueue

/-- The recorded decisions of a round and the leaf that they led to. -/
def Round.visit (round : Round α) : List Decision × α :=
  (round.walked.decisions.toList, round.result)

/-- Start the queue again, follow it to a leaf and backtrack. -/
def round (tree : DecisionTree α) (queue : DecisionQueue) : Round α :=
  let walk := tree.follow queue.rewind
  { questions := tree.questions queue.rewind
    result := walk.1
    walked := walk.2
    goesOn := walk.2.backtrack.1
    next := walk.2.backtrack.2 }

/-- The rounds of a search, from some queue until backtracking finds no path. -/
inductive Searches (tree : DecisionTree α) : DecisionQueue → List (Round α) → Prop where
  /-- The round is the last one. -/
  | last {queue : DecisionQueue} (ends : (tree.round queue).goesOn = false) :
      Searches tree queue [tree.round queue]
  /-- The search goes on. -/
  | more {queue : DecisionQueue} {rounds : List (Round α)}
      (goes : (tree.round queue).goesOn = true)
      (rest : Searches tree (tree.round queue).next rounds) :
      Searches tree queue (tree.round queue :: rounds)

/-- A search that visits every leaf of a tree once. -/
structure IsDepthFirst (tree : DecisionTree α) (rounds : List (Round α)) : Prop where
  /-- The leaves are visited from left to right. -/
  leaves : rounds.map Round.result = tree.leaves
  /-- What is recorded at each of them is the path that leads to it. -/
  paths : rounds.map Round.visit = tree.paths
  /-- No path is recorded twice. -/
  once : (rounds.map fun round => round.walked.decisions.toList).Nodup
  /-- A walk has replayed all that is recorded behind it. -/
  replayed : ∀ round ∈ rounds, round.walked.cursor = round.walked.length
  /-- No recorded decision is dropped on the way. -/
  kept : ∀ round ∈ rounds, ∀ question ∈ round.questions, ¬question.1.IsStale question.2
  /-- Backtracking fails behind the last leaf and nowhere else, and leaves nothing. -/
  exhausted : ∃ earlier last, rounds = earlier ++ [last] ∧
    (∀ round ∈ earlier, round.goesOn = true) ∧ last.goesOn = false ∧ last.next = .empty

/-! ## A round -/

theorem map_snd_paths (tree : DecisionTree α) : tree.paths.map Prod.snd = tree.leaves := by
  induction tree with
  | leaf result => rfl
  | node command falls takes falls_eq takes_eq =>
      rw [paths, leaves, List.map_append, List.map_map, List.map_map, ← falls_eq, ← takes_eq]
      rfl

/-- A queue without further decisions drops nothing. -/
theorem not_isStale_replaying_nil (past : List Decision) (command : Nat) :
    ¬(replaying past []).IsStale command := by
  rintro ⟨decision, recorded, -⟩
  simp [replaying] at recorded

theorem not_isStale_replaying_cons (past later : List Decision) (decision : Decision) :
    ¬(replaying past (decision :: later)).IsStale decision.command := by
  rintro ⟨other, recorded, differs⟩
  have same : decision = other := by simpa [replaying] using recorded
  exact differs (congrArg Decision.command same.symm)

/-- Nothing is dropped on a walk along decisions that fit. -/
theorem not_isStale_of_fits (past : List Decision) {pending : List Decision}
    (fits : tree.Fits pending) :
    ∀ question ∈ tree.questions (replaying past pending), ¬question.1.IsStale question.2 := by
  induction tree generalizing past pending with
  | leaf result => simp [questions]
  | node command falls takes falls_kept takes_kept =>
      cases pending with
      | nil =>
          rw [questions, DecisionQueue.decide_fresh, if_neg Bool.false_ne_true, List.forall_mem_cons]
          exact ⟨not_isStale_replaying_nil past command, falls_kept _ falls.fits_nil⟩
      | cons decision later =>
          obtain ⟨rfl, fits⟩ := fits
          rw [questions, DecisionQueue.decide_recorded, List.forall_mem_cons]
          refine ⟨not_isStale_replaying_cons past later decision, ?_⟩
          split at fits
          · rw [if_pos ‹_›]
            exact takes_kept _ fits
          · rw [if_neg ‹_›]
            exact falls_kept _ fits

/-- A round along decisions that fit records the first path that begins with them, and leaves the path
behind it. -/
theorem round_eq {pending : List Decision} (fits : tree.Fits pending) :
    tree.round (replaying [] pending) =
      { questions := tree.questions (replaying [] pending)
        result := (tree.first pending).2
        walked := replaying (tree.first pending).1 []
        goesOn := (nextPath (tree.first pending).1).isSome
        next := (nextPath (tree.first pending).1).elim .empty (replaying []) } := by
  have start : (replaying [] pending).rewind = replaying [] pending := rfl
  have recorded : (replaying (tree.first pending).1 []).decisions.toList = (tree.first pending).1 := by
    simp [replaying]
  rw [round, start, follow_eq_first [] fits, List.nil_append, DecisionQueue.backtrack_eq, recorded]
  cases nextPath (tree.first pending).1 <;> rfl

theorem visit_round {pending : List Decision} (fits : tree.Fits pending) :
    (tree.round (replaying [] pending)).visit = tree.first pending := by
  rw [round_eq fits]
  simp [Round.visit, replaying]

/-! ## A search -/

/-- What a search does is determined by the queue that it begins with. -/
theorem Searches.unique {queue : DecisionQueue} {rounds others : List (Round α)}
    (searches : tree.Searches queue rounds) (other : tree.Searches queue others) : rounds = others := by
  induction searches generalizing others with
  | last ends =>
      cases other with
      | last => rfl
      | more goes => exact absurd (ends.symm.trans goes) Bool.false_ne_true
  | more goes _ induction =>
      cases other with
      | last ends => exact absurd (ends.symm.trans goes) Bool.false_ne_true
      | more _ rest => rw [induction rest]

/-- A search from decisions that fit visits the leaves from the first one behind them on. -/
theorem exists_searches {pending : List Decision} (fits : tree.Fits pending) :
    ∃ rounds, tree.Searches (replaying [] pending) rounds ∧
      rounds.map Round.visit = tree.pathsFrom pending := by
  generalize left : (tree.pathsFrom pending).length = count
  induction count generalizing pending with
  | zero =>
      rw [(pathsFrom_eq_cons fits).1] at left
      cases left
  | succ count induction =>
      obtain ⟨listed, following⟩ := pathsFrom_eq_cons fits
      rw [listed] at left ⊢
      have visits := visit_round fits
      cases found : nextPath (tree.first pending).1 with
      | none =>
          refine ⟨_, .last ?_, ?_⟩
          · rw [round_eq fits, found]
            rfl
          · rw [List.map_singleton, visits]
            rfl
      | some next =>
          rw [found] at left
          obtain ⟨rounds, searches, visited⟩ := induction (following next found) (Nat.succ.inj left)
          refine ⟨tree.round (replaying [] pending) :: rounds, .more ?_ ?_, ?_⟩
          · rw [round_eq fits, found]
            rfl
          · rw [round_eq fits, found]
            exact searches
          · rw [List.map_cons, visits, visited]
            rfl

/-- Every round of a search begins with decisions that fit. -/
theorem Searches.exists_fits {pending : List Decision} {rounds : List (Round α)}
    (searches : tree.Searches (replaying [] pending) rounds) (fits : tree.Fits pending) :
    ∀ round ∈ rounds, ∃ begun, tree.Fits begun ∧ round = tree.round (replaying [] begun) := by
  generalize same : replaying [] pending = queue at searches
  induction searches generalizing pending with
  | last =>
      subst same
      exact fun round listed => ⟨pending, fits, List.mem_singleton.mp listed⟩
  | more goes _ induction =>
      subst same
      rw [List.forall_mem_cons]
      refine ⟨⟨pending, fits, rfl⟩, ?_⟩
      rw [round_eq fits] at goes
      obtain ⟨next, found⟩ := Option.isSome_iff_exists.mp goes
      exact induction ((pathsFrom_eq_cons fits).2 next found) (by rw [round_eq fits, found]; rfl)

/-- A search goes on until its last round. -/
theorem Searches.exists_last {queue : DecisionQueue} {rounds : List (Round α)}
    (searches : tree.Searches queue rounds) : ∃ earlier last, rounds = earlier ++ [last] ∧
      (∀ round ∈ earlier, round.goesOn = true) ∧ last.goesOn = false := by
  induction searches with
  | last ends => exact ⟨[], _, rfl, by simp, ends⟩
  | more goes _ induction =>
      obtain ⟨earlier, last, rfl, went, ends⟩ := induction
      exact ⟨_ :: earlier, last, rfl, List.forall_mem_cons.mpr ⟨goes, went⟩, ends⟩

/-- A round behind which nothing is left leaves an empty queue. -/
theorem next_eq_empty {pending : List Decision} (fits : tree.Fits pending)
    (ends : (tree.round (replaying [] pending)).goesOn = false) :
    (tree.round (replaying [] pending)).next = .empty := by
  rw [round_eq fits] at ends ⊢
  rw [Option.not_isSome_iff_eq_none.mp (Bool.eq_false_iff.mp ends)]
  rfl

/-- Searching any tree from an empty queue comes to an end, and visits every leaf once, from left to
right.  Behind each walk the path to its leaf is recorded and nothing else, no recorded decision is dropped
before it was flipped, and backtracking fails for the first time behind the last leaf, where it leaves
nothing recorded. -/
theorem searches_depth_first (tree : DecisionTree α) :
    (∃ rounds, tree.Searches .empty rounds) ∧
      ∀ rounds, tree.Searches .empty rounds → tree.IsDepthFirst rounds := by
  have start : DecisionQueue.empty = replaying [] [] := rfl
  obtain ⟨visited, searched, all⟩ := exists_searches tree.fits_nil
  rw [start]
  refine ⟨⟨visited, searched⟩, fun rounds searches => ?_⟩
  obtain rfl := searches.unique searched
  rw [pathsFrom_nil] at all
  have begun := searches.exists_fits tree.fits_nil
  refine
    { leaves := ?_, paths := all, once := ?_, replayed := ?_, kept := ?_, exhausted := ?_ }
  · rw [← map_snd_paths, ← all, List.map_map]
    rfl
  · have recorded : rounds.map (fun round => round.walked.decisions.toList) =
        tree.paths.map Prod.fst := by
      rw [← all, List.map_map]
      rfl
    rw [recorded, List.Nodup, List.pairwise_map]
    exact tree.pairwise_paths.imp Decision.Precedes.ne
  · intro round listed
    obtain ⟨pending, fits, rfl⟩ := begun round listed
    rw [round_eq fits]
    simp [replaying, DecisionQueue.length]
  · intro round listed
    obtain ⟨pending, fits, rfl⟩ := begun round listed
    exact not_isStale_of_fits [] fits
  · obtain ⟨earlier, last, rfl, went, ends⟩ := searches.exists_last
    obtain ⟨pending, fits, rfl⟩ := begun last (by simp)
    exact ⟨earlier, _, rfl, went, ends, next_eq_empty fits ends⟩

/-- A jump that is met again on the way is decided on its own each time. -/
example :
    let tree := node 1 (node 1 (leaf 'a') (leaf 'b')) (leaf 'c')
    (tree.round (tree.round .empty).next).visit = ([⟨1, false⟩, ⟨1, true⟩], 'b') := by
  cbv

end DecisionTree
end NwScript
