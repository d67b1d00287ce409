/-!
# Branch decisions

A path through a subroutine is fixed by what it decides at each conditional jump.  The queue records
the decisions of the current path.  A walk replays them from the start and falls through at every
jump beyond them; backtracking flips the last decision that fell through and forgets all later ones.
-/

namespace NwScript

/-- What a path does at one conditional jump. -/
structure Decision where
  /-- The conditional jump. -/
  command : Nat
  /-- The jump is taken. -/
  taken : Bool
  deriving DecidableEq, Repr, Inhabited

/-- The decisions of a path and how many of them the current walk has replayed. -/
structure DecisionQueue where
  /-- The decisions, first to last. -/
  decisions : Array Decision
  /-- Number of decisions replayed by the current walk. -/
  cursor : Nat
  deriving DecidableEq, Repr, Inhabited

namespace DecisionQueue

/-- The queue without decisions. -/
def empty : DecisionQueue := ⟨#[], 0⟩

/-- Number of recorded decisions. -/
def length (queue : DecisionQueue) : Nat :=
  queue.decisions.size

/-- Start another walk along the recorded decisions. -/
def rewind (queue : DecisionQueue) : DecisionQueue :=
  { queue with cursor := 0 }

/-- Forget all decisions. -/
def clear (_queue : DecisionQueue) : DecisionQueue := empty

/-- Decide at a jump: replay the recorded decision, or record that the jump falls through.
A recorded decision about another jump is stale and is dropped with all later ones. -/
def decide (queue : DecisionQueue) (command : Nat) : Bool × DecisionQueue :=
  let fresh (decisions : Array Decision) : Bool × DecisionQueue :=
    (false, ⟨decisions.push ⟨command, false⟩, queue.cursor + 1⟩)
  match queue.decisions[queue.cursor]? with
  | some decision =>
      if decision.command = command then
        (decision.taken, { queue with cursor := queue.cursor + 1 })
      else
        fresh (queue.decisions.take queue.cursor)
  | none => fresh queue.decisions

/-- Flip the last decision that fell through and drop the later ones; false when there is none. -/
def backtrack (queue : DecisionQueue) : Bool × DecisionQueue :=
  let kept := queue.decisions.popWhile (·.taken)
  match kept.back? with
  | some last => (true, ⟨kept.pop.push { last with taken := true }, 0⟩)
  | none => (false, empty)

end DecisionQueue
end NwScript
