import NwScript.Recovery.Values

/-!
# Declarations, copies and pops

Reserving a slot declares a variable, a copy to the top reads one, a copy down assigns to one, and a
pop ends the life of whatever is on top: an effect that nobody used becomes a statement, and locals
that go out of scope before more code follows are wrapped into a scope of their own.
-/

namespace NwScript
namespace Recover

/-- Declare a variable in the innermost open node. -/
def declare (var : VarId) : Recover Unit := do
  let declaration ← addNode (.declaration var none false)
  onVar var fun entry => { entry with declaration := some declaration }
  emit declaration

/-- The three slots of a vector. -/
def reserveVector (kind : VarKind) : Recover Unit := do
  let x ← addVar { kind, type := .float }
  let y ← addVar { kind, type := .float }
  let z ← addVar { kind, type := .float }
  let vector ← group [x, y, z]
  onStack (·.pushAll [.var x, .var y, .var z])
  match vector with
  | some vector => declare vector
  | none => pure ()

/-- Reserve a slot for a value of a type. -/
def reserve (code : TypeCode) : Recover Unit := do
  let kind : VarKind := if (← get).tree.kind = .globals then .global else .localVar
  if code = .vector then
    reserveVector kind
  else
    let var ← addVar { kind, type := .simple code }
    push (.var var)
    declare var

/-- Push a literal. -/
def constant (instruction : Instruction) : Recover Unit := do
  match instruction.operand with
  | .literal value => push (.literal (← addNode (.literal value)))
  | _ => throw (.malformed (.noLiteral (← get).position))

/-- Push stand-ins for a number of slots. -/
def pushUnknown : (count : Nat) → Recover Unit
  | 0 => pure ()
  | count + 1 => do
      push (.literal (← unknownOperand))
      pushUnknown count

/-- Push a use of a variable as an intermediate value. -/
def pushUse (var : VarId) (width : Nat) : Recover VarId := do
  commit var
  let type := (← get).tree.vars.type var
  let value ← addNode (.reference var)
  pushValue type value width

/-- Push copies of entries one by one. -/
def pushEach : List StackEntry → Recover Unit
  | [] => pure ()
  | entry :: entries => do
      match entry with
      | .var var =>
          if (← get).isNamed entry then
            let _ ← pushUse var 1
          else
            push entry
      | .literal _ => push entry
      pushEach entries

/-- Push a copy of entries that form one value, if they do. -/
def pushCopies (entries : List StackEntry) : Recover Unit := do
  match ← namedValue entries with
  | some var =>
      let temporary ← pushUse var entries.length
      modify fun recovery => { recovery with track := some (.copied temporary var) }
  | none => pushEach entries

/-- A statement that stepped a variable becomes a value, which is the new value of the variable. -/
def stepBefore (statement : NodeId) (target : VarId) : Recover Unit := do
  match (← get).tree.node statement with
  | .statement expression =>
      onTree fun tree => ((tree.detach statement).1.modify expression fun
        | .step op _ place => .step op true place
        | node => node)
      let type := ((← get).tree.vars.get? target).elim .int (·.type)
      let _ ← pushValue type expression 1
  | _ => pure ()

/-- The statement that stepped a variable, if entries are that variable and no jump leads between
the step and the copy. -/
def steppedBefore? (input : RecoveryInput) (command : Nat) (track : Option StepTrack)
    (entries : List StackEntry) : Except Fault (Option (NodeId × VarId)) :=
  match track, entries with
  | some (.stepped statement target), [.var var] => do
      if var = target then
        let origins ← input.table.origins command
        return if origins = [] then some (statement, target) else none
      else
        return none
  | _, _ => return none

/-- Push a copy of entries; there must be at least one. -/
def copyEntries (input : RecoveryInput) (command : Nat) (track : Option StepTrack)
    (entries : List StackEntry) : Recover Unit := do
  match ← (steppedBefore? input command track entries : Except Fault _) with
  | some (statement, target) => stepBefore statement target
  | none =>
      match entries with
      | [] => throw (.emptyCopy (← get).position)
      | first :: rest =>
          if rest.all (· = first) && !(← get).isNamed first then
            onStack (·.pushAll entries)
          else
            pushCopies entries

/-- The global variables that a copy relative to the base pointer addresses, as far as they exist. -/
def globalEntries (recovery : Recovery) (offset : Int) (size : Nat) : List StackEntry :=
  let first := (recovery.globals.length : Int) + offset.tdiv 4
  (List.range (size / 4)).filterMap fun (index : Nat) =>
    let slot := first + index
    if 0 ≤ slot then recovery.globals[slot.toNat]?.map .var else none

/-- The stack slots that a copy addresses. -/
def stackEntries? (recovery : Recovery) (offset : Int) (size : Nat) : Option (List StackEntry) :=
  (recovery.stack.range? offset size).map fun range => recovery.stack.slice range.1 range.2

/-- The global variables that a copy addresses, if all of them exist. -/
def globalEntries? (recovery : Recovery) (offset : Int) (size : Nat) : Option (List StackEntry) :=
  let entries := globalEntries recovery offset size
  if entries.length = size / 4 then some entries else none

/-- Offset and size of a copy. -/
def copyOperand (instruction : Instruction) : Recover (Int × Nat) := do
  match instruction.stackOperand? with
  | some operand => return operand
  | none => throw (.malformed (.noStackOperand instruction.opcode (← get).position))

/-- Copy to the top; slots that do not exist are stand-ins. -/
def copyTop (input : RecoveryInput) (command : Nat) (track : Option StepTrack)
    (find : Recovery → Int → Nat → Option (List StackEntry)) : Recover Unit := do
  let (offset, size) ← copyOperand (input.program.instruction command)
  match find (← get) offset size with
  | some entries => copyEntries input command track entries
  | none => pushUnknown (size / 4)

/-- Keep the top value until the subroutine returns it. -/
def holdReturn (width : Nat) : Recover Unit := do
  let value ← takeValue width
  modify fun recovery => { recovery with pendingReturn := some value }
  let held ← unknownOperand
  let temporary ← pushValue (← get).tree.signature.returnType held width
  onVar temporary fun entry => { entry with consumed := true }

/-- Every one of some entries is a slot of the result. -/
def isResult (recovery : Recovery) (targets : List StackEntry) : Bool :=
  !targets.isEmpty && targets.all fun
    | .var var => recovery.tree.vars.kind var = .ret
    | .literal _ => false

/-- Assign the top value to some slots; the assignment is an expression that stays on the stack. -/
def assign (targets : List StackEntry) : Recover Unit := do
  let recovery ← get
  if isResult recovery targets then
    holdReturn targets.length
  else
    match ← namedValue targets with
    | none => throw (.unsupported (.assignedTemporary recovery.position))
    | some target =>
        commit target
        let value ← takeValue targets.length
        let place ← addNode (.reference target)
        let assignment ← addNode (.assign place value)
        let _ ← pushValue ((← get).tree.vars.type target) assignment targets.length

/-- Copy the top value down; slots that do not exist are left alone. -/
def copyDown (instruction : Instruction)
    (find : Recovery → Int → Nat → Option (List StackEntry)) : Recover Unit := do
  let (offset, size) ← copyOperand instruction
  match find (← get) offset size with
  | some targets => assign targets
  | none => pure ()

/-- An intermediate value goes away: if nobody used it, its effects become a statement. -/
def dropTemporary (var : VarId) : Recover Unit := do
  let recovery ← get
  match recovery.tree.vars.get? var with
  | some ⟨_, _, _, _, _, some value, _, false⟩ =>
      if recovery.tree.hasSideEffects value then emitNode (.statement value)
  | _ => pure ()

/-- A local goes away: a call result that nobody used becomes a statement in place of the
declaration.  Gives the local if its declaration stays. -/
def dropLocal (var : VarId) : Recover (Option VarId) := do
  let recovery ← get
  let root := recovery.tree.vars.root var
  match recovery.pendingCall? root with
  | some (declaration, call) =>
      if (recovery.tree.parent? declaration).isSome then
        discard root
        let statement ← addNode (.statement call)
        onTree fun tree => (tree.replace declaration statement).1
        return none
      else
        return some root
  | none => return some root

/-- Pop slots; gives the locals whose declarations stay, in the order of their first slot. -/
def dropSlots (found : List VarId) : (count : Nat) → Recover (List VarId)
  | 0 => return found
  | count + 1 => do
      match (← get).stack.pop? with
      | none => return found
      | some (entry, rest) =>
          onStack fun _ => rest
          match entry with
          | .literal _ => dropSlots found count
          | .var var =>
              if rest.peek? 1 = some entry then
                dropSlots found count
              else
                match (← get).tree.vars.kind var with
                | .temp =>
                    dropTemporary var
                    dropSlots found count
                | .localVar =>
                    match ← dropLocal var with
                    | some root =>
                        dropSlots (if root ∈ found then found else found ++ [root]) count
                    | none => dropSlots found count
                | _ => dropSlots found count

/-- More code follows in the same scope behind a pop, other than one that leaves it. -/
def continuesBehind (input : RecoveryInput) (command limit : Nat) : Except Fault Bool := do
  match ← input.nextLive command with
  | some next =>
      let opcode := input.program.opcode next
      return input.program.position next < limit && opcode ≠ .jump && opcode ≠ .ret &&
        opcode ≠ .moveStack
  | none => return false

/-- A statement declares one of some variables or a member of it. -/
def declaresOne (tree : ScriptTree) (locals : List VarId) (statement : NodeId) : Bool :=
  match tree.node statement with
  | .declaration var _ _ => tree.vars.root var ∈ locals
  | _ => false

/-- Wrap the statements from the first declaration of some locals on into a scope. -/
def wrapLocals (input : RecoveryInput) (command : Nat) (locals : List VarId) : Recover Unit := do
  let recovery ← get
  let current := recovery.current
  if ← (continuesBehind input command (recovery.limit current) : Except Fault _) then
    let children := recovery.tree.children current
    match children.findIdx? (declaresOne recovery.tree locals) with
    | none => pure ()
    | some first =>
        let block ← addNode
          (.block { start := recovery.position, limit := input.program.positionAfter command })
        onTree fun tree => ((children.drop first).foldl
          (fun tree child => (tree.detach child).1.append block child) tree).insert current first
            block

/-- Pop slots. -/
def popSlots (input : RecoveryInput) (command : Nat) : Recover Unit := do
  match (input.program.instruction command).offset? with
  | none => throw (.malformed (.noOffset (← get).position))
  | some offset =>
      let locals ← dropSlots [] (offset.natAbs / 4)
      if locals ≠ [] then wrapLocals input command locals

end Recover
end NwScript
