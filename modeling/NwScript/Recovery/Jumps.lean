import NwScript.Recovery.Switches

/-!
# Jumps

A conditional jump tests the condition of a loop, dispatches to a case or guards a branch.  A plain
jump ends a loop, skips an else branch or a deferred argument, or leaves a loop, a switch or the
subroutine.  Which of them it is follows from comparing byte positions.
-/

namespace NwScript
namespace Recover

/-- Where a jump leads. -/
def targetOf (input : RecoveryInput) (command : Nat) (missing : Obstacle) : Recover Nat := do
  match ← (input.table.destination command : Except Fault _) with
  | some destination => return destination
  | none => unclassified missing

/-- Give a loop its condition. -/
def setCondition (loop condition : NodeId) : Recover Unit :=
  onTree fun tree => (tree.modify loop fun
    | .whileLoop _ body => .whileLoop (some condition) body
    | .doLoop _ body => .doLoop (some condition) body
    | node => node).setParent condition (some loop)

/-- The loop before whose body a jump to a target tests. -/
def testedWhile? (recovery : Recovery) (target : Nat) : Option NodeId :=
  recovery.awaiting.filter fun loop => recovery.limit loop = target

/-- A loop without condition that tests behind its body. -/
def isOpenDo : Node → Bool
  | .doLoop none _ => true
  | _ => false

/-- The loop behind whose body a jump to a target tests. -/
def testedDo? (recovery : Recovery) (target : Nat) : Option NodeId :=
  recovery.innermostLoop?.filter fun loop =>
    isOpenDo (recovery.tree.node loop) &&
      (recovery.position + Instruction.skipOne) % 0x100000000 = recovery.limit loop &&
      target = recovery.limit loop

/-- Open the body that a jump to a target guards. -/
def openBranch (start target : Nat) : Recover Unit := do
  let recovery ← get
  if target < start then
    unclassified (.conditionalBackwards target)
  else if recovery.escapes target then
    unclassified (.branchEscapes target)
  else
    let condition ← takeSlot
    let _ ← openNode (.branch (some condition) { start, limit := target } none)

/-- A jump if the value on top is zero. -/
def jumpZero (start target : Nat) : Recover Unit := do
  let recovery ← get
  match testedWhile? recovery target with
  | some loop =>
      setCondition loop (← takeSlot)
      modify fun recovery => { recovery with awaiting := none }
  | none =>
      match testedDo? recovery target with
      | some loop => setCondition loop (← takeSlot)
      | none => openBranch start target

/-- A conditional jump. -/
def conditional (input : RecoveryInput) (command : Nat) : Recover Unit := do
  let destination ← targetOf input command .conditionalWithoutDestination
  let target := input.program.position destination
  if input.program.opcode command = .jumpNonzero then
    dispatchCase target
  else
    jumpZero (input.program.positionAfter command) target

/-- The mark of a jump that no statement expresses. -/
def unresolvedJump : String := "__unresolved_jump"

/-- A jump backwards. -/
def backwardJump (target behind : Nat) : Recover Unit := do
  let recovery ← get
  match recovery.innermostLoop? with
  | none => unclassified (.backwardOutsideLoop target)
  | some loop =>
      let (start, limit) := recovery.range loop
      let isWhile : Bool := match recovery.tree.node loop with
        | .whileLoop _ _ => true
        | _ => false
      if target = start ∧ behind = limit then
        pure ()
      else if target = start ∧ isWhile then
        emitNode .next
      else if recovery.aroundLoop.any fun scope =>
          recovery.isLoop scope && (recovery.range scope.node).1 = target then
        emitNode (.comment unresolvedJump)
      else
        unclassified (.backward target)

/-- Return what was copied into the result. -/
def returnPending : Recover Unit := do
  let value := (← get).pendingReturn
  modify fun recovery => { recovery with pendingReturn := none }
  emitNode (.ret value)

/-- A jump to a target leaves the innermost loop or switch. -/
def leaves (recovery : Recovery) (target : Nat) (test : Node → Bool) : Bool :=
  recovery.innermostBreakable?.any fun node =>
    test (recovery.tree.node node) && recovery.limit node = target

/-- A jump at the end of a guarded body may skip an else branch.  A body at the end of the subroutine
joins at its epilogue, so its skip looks like a return and stays a skip while the else branch fits. -/
def mayOpenElse (recovery : Recovery) (target behind : Nat) (returns : Bool) : Bool :=
  let limit := recovery.limit recovery.current
  limit = behind && limit < target && (!returns || target ≤ recovery.enclosingLimit)

/-- The innermost open node with the end of its else branch, if it is a guarded body that has
none. -/
def withSkip? (target : Nat) : Node → Option Node
  | .branch condition body none => some (.branch condition body (some target))
  | _ => none

/-- A jump to a target continues the innermost loop, which tests behind its body. -/
def continuesDo (recovery : Recovery) (target : Nat) : Bool :=
  recovery.innermostLoop?.any fun loop =>
    match recovery.tree.node loop with
    | .doLoop _ body =>
        recovery.position < target && (target + Instruction.skipOne) % 0x100000000 ≤ body.limit
    | _ => false

/-- A jump to a target leaves or continues an open loop in a way that no statement expresses. -/
def isUnresolved (recovery : Recovery) (target : Nat) : Bool :=
  recovery.innermostLoop?.any fun loop =>
    let (start, limit) := recovery.range loop
    (start < target && target < limit) || target = start || target = limit ||
      recovery.aroundLoop.any fun scope =>
        recovery.isLoop scope &&
          (target = (recovery.range scope.node).1 || target = (recovery.range scope.node).2)

/-- A jump forwards that neither breaks nor returns a value nor skips an else branch. -/
def otherForwardJump (target : Nat) (returns : Bool) : Recover Unit := do
  let recovery ← get
  if returns then
    emitNode (.ret none)
  else if continuesDo recovery target then
    emitNode .next
  else if isUnresolved recovery target then
    emitNode (.comment unresolvedJump)
  else
    unclassified (.forward target)

/-- A jump forwards. -/
def forwardJump (target behind : Nat) (returns : Bool) : Recover Unit := do
  let recovery ← get
  let current := recovery.current
  if leaves recovery target Node.isSwitch then
    emitNode .leave
  else if returns && recovery.pendingReturn.isSome then
    returnPending
  else if leaves recovery target Node.isLoop then
    emitNode .leave
  else if mayOpenElse recovery target behind returns then
    match withSkip? target (recovery.tree.node current) with
    | some node => onTree fun tree => tree.modify current fun _ => node
    | none => otherForwardJump target returns
  else
    otherForwardJump target returns

/-- Begin a deferred argument. -/
def openClosure (start limit : Nat) : Recover Unit := do
  enter (← addNode (.closure { start, limit }))

/-- A plain jump. -/
def jump (input : RecoveryInput) (command : Nat) : Recover Unit := do
  let destination ← targetOf input command .jumpWithoutDestination
  let target := input.program.position destination
  let behind := input.program.positionAfter command
  let recovery ← get
  if input.skipsClosure command then
    openClosure behind target
  else
    match recovery.dispatch with
    | some dispatch =>
        modify fun recovery => { recovery with dispatch := none }
        openSwitch input command dispatch target
    | none =>
        if target < recovery.position then
          backwardJump target behind
        else if target ≠ behind then
          forwardJump target behind (input.returnsAt destination)

end Recover
end NwScript
