import NwScript.Recovery.State

/-!
# Values on the stack

Taking a value off the stack gives its expression.  A value whose entry is still on the stack is
copied, so that no expression has two users.  A call result that waits in a declaration moves into
its first use.
-/

namespace NwScript
namespace Recovery

/-- The aggregate whose members are exactly some entries. -/
def wholeAggregate? (recovery : Recovery) : List StackEntry → Option VarId
  | .var first :: rest => do
      let aggregate ← recovery.tree.vars.parent? first
      if (recovery.tree.vars.members aggregate).map .var = .var first :: rest then
        some aggregate
      else
        none
  | _ => none

/-- The variable of an entry. -/
def entryVar? : StackEntry → Option VarId
  | .literal _ => none
  | .var id => some id

/-- Different named variables of one class that some entries are. -/
def looseVars? (recovery : Recovery) (entries : List StackEntry) : Option (List VarId) := do
  let vars ← entries.mapM entryVar?
  let first ← vars.head?
  let kind := recovery.tree.vars.kind first
  if kind ≠ .temp ∧ vars.Nodup ∧ ∀ var ∈ vars, recovery.tree.vars.kind var = kind then
    some vars
  else
    none

/-- The call result that waits in the declaration of a variable, with the declaration. -/
def pendingCall? (recovery : Recovery) (var : VarId) : Option (NodeId × NodeId) := do
  let declaration ← recovery.tree.vars.declaration? var
  match recovery.tree.node declaration with
  | .declaration _ (some call) true => some (declaration, call)
  | _ => none

end Recovery

namespace Recover

/-- Make a reserved slot and its members intermediate values that are used up. -/
def discard (var : VarId) : Recover Unit :=
  onTree fun tree => (var :: tree.vars.members var).foldl
    (fun tree id => tree.modifyVar id fun entry =>
      { entry with kind := .temp, declaration := none, consumed := true }) tree

/-- The call result in the declaration of a variable stays there. -/
def keepCall (tree : ScriptTree) (var : VarId) : ScriptTree :=
  match tree.vars.declaration? var with
  | some declaration => tree.modify declaration Node.settled
  | none => tree

/-- A variable is used, so a call result in its declaration or that of its aggregate stays there. -/
def commit (var : VarId) : Recover Unit :=
  onTree fun tree => keepCall (keepCall tree var) (tree.vars.root var)

/-- A use of a named variable; a call result that waits in its declaration moves here instead. -/
def useNamed (var : VarId) : Recover NodeId := do
  match (← get).pendingCall? var with
  | some (declaration, call) =>
      onTree fun tree => (tree.detach declaration).1
      discard var
      return call
  | none =>
      commit var
      addNode (.reference var)

/-- The expression of an intermediate value; it is copied if the value stays in use. -/
def useTemporary (var : VarId) (live : Bool) : Recover NodeId := do
  match ((← get).tree.vars.get? var).bind (·.value) with
  | some value =>
      if live then
        duplicate value
      else
        onVar var fun entry => { entry with consumed := true }
        return value
  | none => unknownOperand

/-- Take the value whose entry fills the top `width` slots. -/
def takeEntry (entry : StackEntry) (width : Nat) : Recover NodeId := do
  onStack fun stack => stack.truncate (stack.height - width)
  let recovery ← get
  let live := recovery.stack.slots.contains entry
  match entry with
  | .literal node => if live then duplicate node else return node
  | .var var =>
      if recovery.tree.vars.kind var = .temp then useTemporary var live else useNamed var

/-- Take a value of one slot. -/
def takeSlot : Recover NodeId := do
  match (← get).stack.peek? 1 with
  | some entry => takeEntry entry 1
  | none => unknownOperand

/-- Group different named variables of one class that are not members yet; none when some entries
are anything else. -/
def groupLoose (entries : List StackEntry) : Recover (Option VarId) := do
  let recovery ← get
  match recovery.looseVars? entries with
  | some vars =>
      if vars.any fun var => (recovery.tree.vars.parent? var).isSome then
        throw (.structNesting recovery.position)
      else
        group vars
  | none => return none

/-- Take a value of several slots whose entries are not all equal: an aggregate as a whole, three
slots as a vector, or variables that become an aggregate. -/
def takeComposite (entries : List StackEntry) : Recover NodeId := do
  let recovery ← get
  let below := fun (stack : SlotStack StackEntry) => stack.truncate (stack.height - entries.length)
  match recovery.wholeAggregate? entries with
  | some aggregate =>
      onStack below
      useNamed aggregate
  | none =>
      if entries.length = 3 ∧ entries.all fun entry => (recovery.entryType entry).slots = 1 then
        let z ← takeSlot
        let y ← takeSlot
        let x ← takeSlot
        addNode (.vector x y z)
      else
        match ← groupLoose entries with
        | some aggregate =>
            onStack below
            useNamed aggregate
        | none => throw (.unsupported (.unrelatedSlots entries.length recovery.position))

/-- Take a value of some width; one that is not there is a stand-in, and nothing is popped. -/
def takeValue (width : Nat) : Recover NodeId := do
  match (← get).stack.popMany? width with
  | some (first :: rest, _) =>
      if rest.all (· = first) then takeEntry first width else takeComposite (first :: rest)
  | _ => unknownOperand

/-- The expression of an entry that stays on the stack. -/
def peekExpression (entry : StackEntry) : Recover NodeId := do
  let recovery ← get
  match entry with
  | .literal node => duplicate node
  | .var var =>
      if recovery.tree.vars.kind var = .temp then
        useTemporary var true
      else
        commit var
        addNode (.reference var)

/-- An intermediate value has moved into a statement, so that popping it evaluates nothing. -/
def consume (entry : StackEntry) : Recover Unit :=
  match entry with
  | .literal _ => pure ()
  | .var var => onVar var fun found =>
      if found.kind = .temp then { found with consumed := true } else found

/-- The named variable or the aggregate that some entries are. -/
def namedValue (entries : List StackEntry) : Recover (Option VarId) := do
  let recovery ← get
  match entries with
  | [] => return none
  | [entry] => return if recovery.isNamed entry then Recovery.entryVar? entry else none
  | entries =>
      match recovery.wholeAggregate? entries with
      | some aggregate => return some aggregate
      | none => groupLoose entries

end Recover
end NwScript
