import NwScript.Recovery.State

/-!
# Scopes

A scope closes when the recovery reaches the end of its byte range.  The end of a guarded body with a
jump over its else branch opens the else branch, and the end of a deferred argument hands it to the
next call.  Loops open at the instruction that their last backward jump leads to.
-/

namespace NwScript
namespace Recovery

/-- A loop whose condition has not been found. -/
def isOpenLoop : Node → Bool
  | .whileLoop none _ | .doLoop none _ => true
  | _ => false

/-- Where the else branch of a guarded body ends, if it has one. -/
def skip? : Node → Option Nat
  | .branch _ _ skip => skip
  | _ => none

/-- The case of a switch that holds a position. -/
def caseAt? (recovery : Recovery) (position : Nat) : Option NodeId :=
  let current := recovery.current
  if (recovery.tree.node current).isSwitch then
    (recovery.tree.children current).find? fun id =>
      (recovery.tree.node id).body?.any (·.holds position)
  else
    none

/-- A scope is a loop. -/
def isLoop (recovery : Recovery) (scope : Scope) : Bool :=
  (recovery.tree.node scope.node).isLoop

/-- The innermost open loop. -/
def innermostLoop? (recovery : Recovery) : Option NodeId :=
  (recovery.scopes.find? recovery.isLoop).map (·.node)

/-- The open scopes around the innermost loop, innermost first. -/
def aroundLoop (recovery : Recovery) : List Scope :=
  (recovery.scopes.dropWhile fun scope => !recovery.isLoop scope).drop 1

/-- The innermost open loop or switch. -/
def innermostBreakable? (recovery : Recovery) : Option NodeId :=
  (recovery.scopes.find? fun scope =>
    recovery.isLoop scope || (recovery.tree.node scope.node).isSwitch).map (·.node)

/-- Where the node around the innermost open one ends. -/
def enclosingLimit (recovery : Recovery) : Nat :=
  match recovery.scopes with
  | [] => lastPosition
  | [_] => recovery.limit ScriptTree.root
  | _ :: scope :: _ => recovery.limit scope.node

end Recovery

namespace Recover

/-- Open the else branch of a guarded body that has just been closed. -/
def openElse (start limit : Nat) : Recover Unit := do
  let recovery ← get
  if recovery.escapes limit then
    throw (.unclassified start (.elseEscapes limit))
  else
    let _ ← openNode (.otherwise { start, limit })

/-- Make a finished deferred argument available to the next call. -/
def finishClosure (scope : Scope) : Recover Unit := do
  onStack (·.truncate scope.height)
  modify fun recovery => { recovery with closures := scope.node :: recovery.closures }

/-- Close the innermost scope, which ends at `limit`; the scopes around it are given. -/
def closeScope (scope : Scope) (outer : List Scope) (limit : Nat) : Recover Unit := do
  modify fun recovery => { recovery with scopes := outer }
  let node := (← get).tree.node scope.node
  if let some skip := Recovery.skip? node then
    openElse limit skip
  else if Recovery.isOpenLoop node then
    throw (.unclassified limit .loopWithoutCondition)
  else if node.isClosure then
    finishClosure scope

/-- Close the scopes that end at or before a position, at most `count` of them. -/
def closeScopesFrom (position : Nat) : (count : Nat) → Recover Unit
  | 0 => pure ()
  | count + 1 => do
      let recovery ← get
      match recovery.scopes with
      | [] => pure ()
      | scope :: outer =>
          let limit := recovery.limit scope.node
          if limit ≤ position then
            closeScope scope outer limit
            closeScopesFrom position count

/-- Enter the case of the innermost open switch that holds a position. -/
def enterCase (position : Nat) : Recover Unit := do
  match (← get).caseAt? position with
  | some node => enter node
  | none => pure ()

/-- Close the scopes that end at or before a position and enter the switch case that holds it.  A
scope is closed at most twice, since only an else branch opens and it opens nothing. -/
def closeScopes (position : Nat) : Recover Unit := do
  closeScopesFrom position (2 * (← get).scopes.length)
  enterCase position

/-- A jump backwards is the end of a loop that tests behind its body. -/
def endsDoLoop (input : RecoveryInput) (jump : Nat) : Except Fault Bool :=
  match input.program.previous? jump with
  | none => return false
  | some previous => do
      if input.program.opcode previous = .jumpZero ∧
          (input.program.instruction previous).jumpOffset? = some Instruction.skipOne then
        return !(← input.table.isDead previous)
      else
        return false

/-- The live jumps among some that lie behind a position. -/
def latches (input : RecoveryInput) (position : Nat) : List Nat → Except Fault (List Nat)
  | [] => return []
  | origin :: origins => do
      let isLatch ←
        if input.program.opcode origin = .jump ∧ position < input.program.position origin then
          pure !(← input.table.isDead origin)
        else
          pure false
      let rest ← latches input position origins
      return if isLatch then origin :: rest else rest

/-- Open the outermost loop that begins at the current instruction. -/
def openOuterLoop (input : RecoveryInput) (latch : Nat) : Recover Unit := do
  let recovery ← get
  let limit := input.program.positionAfter latch
  let body : Body := { start := recovery.position, limit }
  if recovery.escapes limit then
    unclassified (.loopEscapes limit)
  else if ← (endsDoLoop input latch : Except Fault _) then
    let _ ← openNode (.doLoop none body)
  else
    let loop ← openNode (.whileLoop none body)
    modify fun recovery => { recovery with awaiting := some loop }

/-- Open the loops inside the outermost one that begin at the same instruction; a backward jump that
ends no such loop is a continuation. -/
def openInnerLoops (input : RecoveryInput) : List Nat → Recover Unit
  | [] => pure ()
  | latch :: latches => do
      if ← (endsDoLoop input latch : Except Fault _) then
        let _ ← openNode (.doLoop none {
          start := (← get).position, limit := input.program.positionAfter latch })
      openInnerLoops input latches

/-- Open the loops that begin at an instruction, outermost first. -/
def openLoops (input : RecoveryInput) (command : Nat) : Recover Unit := do
  let origins ← (input.table.origins command : Except Fault _)
  let found ← (latches input (← get).position origins : Except Fault _)
  match found.mergeSort fun left right =>
      input.program.position right ≤ input.program.position left with
  | [] => pure ()
  | outer :: inner =>
      openOuterLoop input outer
      openInnerLoops input inner

end Recover
end NwScript
