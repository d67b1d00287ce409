import NwScript.Typing.Simulation

/-!
# Paths through a subroutine

A walk follows one path, as the decision queue says, until the subroutine returns or cannot go on.
Exploration tries path after path, depth first and falling through before jumping, until one completes
a prototype, the budget is spent, or too many decisions were queued.
-/

namespace NwScript

/-- How a walk ended. -/
inductive WalkResult where
  /-- It reached a return with a balanced stack. -/
  | complete (outcome : WalkOutcome)
  /-- It reached the end of the globals, whose types are given. -/
  | globals (types : List Ty)
  /-- It met a call of a subroutine without prototype. -/
  | blocked (callee : Nat)
  /-- It got stuck, left the subroutine, or went on for too long. -/
  | failed
  deriving DecidableEq, Repr, Inhabited

/-- How an exploration ended. -/
inductive PathResult where
  /-- A path completed a prototype. -/
  | found (outcome : WalkOutcome)
  /-- No path did; the callee is the last one that a path waited for. -/
  | blocked (callee : Option Nat)
  /-- More decisions were queued than allowed. -/
  | limitExceeded
  deriving DecidableEq, Repr, Inhabited

/-- What an exploration leaves behind. -/
structure Exploration where
  /-- How it ended. -/
  result : PathResult
  /-- Decisions of the last path. -/
  queue : DecisionQueue
  /-- Decisions queued so far. -/
  queued : Nat
  deriving DecidableEq, Repr, Inhabited

namespace TypingContext

/-- Number of instructions that one walk may execute. -/
def stepLimit (context : TypingContext) : Nat :=
  max 16 ((context.program.body context.sub).length * 4)

/-- Where control goes, when it goes on, with the decision that was made. -/
def successor (context : TypingContext) (command : Nat) (queue : DecisionQueue) :
    Flow → Except Fault (Option (Option Nat) × DecisionQueue)
  | .next => .ok (some (context.program.next? command), queue)
  | .goto destination => .ok (some (some destination), queue)
  | .branch jump => do
      let (taken, queue) := queue.decide jump
      if taken then
        return (some (← context.table.destination jump), queue)
      else
        return (some (context.program.next? jump), queue)
  | _ => .ok (none, queue)

/-- How a walk ends at an instruction after which it does not go on. -/
def ending (globalsOnly : Bool) (trace : TypeTrace) : Flow → WalkResult
  | .ret =>
      if globalsOnly then .failed
      else
        match trace.finish? with
        | some outcome => .complete outcome
        | none => .failed
  | .saveBase => .globals trace.pushedTypes
  | .blocked callee => .blocked callee
  | _ => .failed

/-- Walk on from an instruction, for at most `steps` more instructions. -/
def walkFrom (context : TypingContext) (globalsOnly : Bool) :
    (steps : Nat) → Option Nat → TypeTrace → DecisionQueue →
      Except Fault (WalkResult × DecisionQueue)
  | _, none, _, queue => .ok (.failed, queue)
  | 0, some _, _, queue => .ok (.failed, queue)
  | steps + 1, some command, trace, queue => do
      let (flow, trace) ← trace.step context globalsOnly command
      match ← context.successor command queue flow with
      | (none, queue) => return (ending globalsOnly trace flow, queue)
      | (some none, queue) => return (.failed, queue)
      | (some (some next), queue) =>
          if context.program.owner next = context.sub then
            walkFrom context globalsOnly steps (some next) trace queue
          else
            return (.failed, queue)

/-- Walk from the entry of the subroutine along the decisions of a queue. -/
def walk (context : TypingContext) (globalsOnly : Bool) (queue : DecisionQueue) :
    Except Fault (WalkResult × DecisionQueue) :=
  context.walkFrom globalsOnly context.stepLimit (context.program.body context.sub).head? {} queue

/-- The callee that the search waits for after another walk. -/
def waitingOn (previous : Option Nat) : WalkResult → Option Nat
  | .blocked callee => some callee
  | _ => previous

/-- Try paths until one completes.  `attempts` counts the walks made and `queued` the decisions queued
before; every walk counts as one decision at least, so the cap bounds the number of walks. -/
def exploreFrom (context : TypingContext) (budget : Option Nat) (cap attempts queued : Nat)
    (waiting : Option Nat) (queue : DecisionQueue) : Except Fault Exploration := do
  let (result, walked) ← context.walk false queue.rewind
  let total := queued + max 1 (walked.length - queue.length)
  if cap < total then
    return ⟨.limitExceeded, walked, total⟩
  else
    match result with
    | .complete outcome => return ⟨.found outcome, walked, total⟩
    | result =>
        let waiting := waitingOn waiting result
        if budget.any (· ≤ attempts + 1) then
          return ⟨.blocked waiting, walked, total⟩
        else
          match walked.backtrack with
          | (true, next) => exploreFrom context budget cap (attempts + 1) total waiting next
          | (false, next) => return ⟨.blocked waiting, next, total⟩
termination_by cap - queued
decreasing_by omega

/-- Search a path that completes a prototype. -/
def explore (context : TypingContext) (budget : Option Nat) (cap queued : Nat)
    (queue : DecisionQueue) : Except Fault Exploration :=
  context.exploreFrom budget cap 0 queued none queue

/-- What is known about the globals of a program. -/
inductive GlobalTypes where
  /-- Their types. -/
  | known (types : List Ty)
  /-- Nothing before the prototype of a callee is known. -/
  | blocked (callee : Nat)
  /-- No path sets them up. -/
  | missing
  deriving DecidableEq, Repr, Inhabited

/-- Try at most `walks` paths until one sets up the globals. -/
def findGlobals (context : TypingContext) (cap : Nat) :
    (walks : Nat) → DecisionQueue → Except Fault GlobalTypes
  | 0, _ => .ok .missing
  | walks + 1, queue => do
      let (result, walked) ← context.walk true queue.rewind
      match result with
      | .globals types => return .known types
      | .blocked callee => return .blocked callee
      | _ =>
          if cap < walked.length then
            return .missing
          else
            match walked.backtrack with
            | (true, next) => findGlobals context cap walks next
            | (false, _) => return .missing

/-- The types of the globals that the subroutine sets up.  A path makes at most one decision a step,
which bounds the number of paths. -/
def globalTypes (context : TypingContext) (cap : Nat) : Except Fault GlobalTypes :=
  context.findGlobals cap (Nat.pow 2 context.stepLimit) .empty

end TypingContext
end NwScript
