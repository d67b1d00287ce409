import NwScript.Layout
import NwScript.Script.Tree
import NwScript.Settings
import NwScript.SlotStack
import NwScript.Typing.Inference

/-!
# State of a recovery

The live instructions of a subroutine are replayed against a stack whose slots hold literals,
intermediate values and named variables.  Expressions are assembled on the stack, statements are
appended to the innermost open scope.
-/

namespace NwScript

/-- What a stack slot holds.  A value of several slots occupies them with equal entries, or with the
members of one aggregate. -/
inductive StackEntry where
  /-- A literal that no use has claimed, by its node. -/
  | literal (node : NodeId)
  /-- A named variable or an intermediate value. -/
  | var (id : VarId)
  deriving DecidableEq, Repr, Inhabited

/-- An open scope. -/
structure Scope where
  /-- The node that receives statements. -/
  node : NodeId
  /-- Stack height when the scope was opened. -/
  height : Nat
  deriving DecidableEq, Repr, Inhabited

/-- A test for equality with a literal, kept until a case dispatch follows. -/
structure Comparison where
  /-- The intermediate value that holds the result. -/
  result : VarId
  /-- The entry that is compared. -/
  subject : StackEntry
  /-- The literal. -/
  label : Constant
  deriving DecidableEq, Repr, Inhabited

/-- The case dispatches of a switch that has not begun yet. -/
structure Dispatch where
  /-- The entry that is dispatched on. -/
  subject : StackEntry
  /-- Labels and case positions in order. -/
  cases : List (Constant × Nat)
  deriving DecidableEq, Repr, Inhabited

/-- What the last instruction did that the next one may complete to an increment or decrement. -/
inductive StepTrack where
  /-- It copied a variable into an intermediate value. -/
  | copied (temporary source : VarId)
  /-- It became a statement that changes a variable by one. -/
  | stepped (statement : NodeId) (target : VarId)
  deriving DecidableEq, Repr, Inhabited

/-- What a recovery reads and never changes. -/
structure RecoveryInput where
  /-- The program. -/
  program : Program
  /-- Positions, jumps and liveness. -/
  table : FlowTable
  /-- The calls. -/
  calls : CallGraph
  /-- Engine actions. -/
  catalog : ActionCatalog
  /-- Prototypes by subroutine. -/
  protos : Array Prototype
  /-- Types of the global slots, bottom first. -/
  globals : List Ty
  /-- The subroutines with a special role. -/
  layout : Layout
  /-- Names by subroutine. -/
  names : List String
  /-- Settings of the run. -/
  settings : Settings

namespace RecoveryInput

/-- Name of a subroutine. -/
def name (input : RecoveryInput) (sub : Nat) : String :=
  input.names[sub]?.getD ("sub" ++ toString sub)

/-- The live instructions of a list, up to the first one. -/
def firstLive (input : RecoveryInput) : List Nat → Except Fault (Option Nat)
  | [] => .ok none
  | command :: rest => do
      if ← input.table.isDead command then firstLive input rest else return some command

/-- The next live instruction of the same subroutine. -/
def nextLive (input : RecoveryInput) (command : Nat) : Except Fault (Option Nat) :=
  input.firstLive
    ((input.program.body (input.program.owner command)).filter fun other => command < other)

end RecoveryInput

/-- A recovery under way. -/
structure Recovery where
  /-- The statements so far. -/
  tree : ScriptTree
  /-- The stack. -/
  stack : SlotStack StackEntry := .empty
  /-- Open scopes inside the body of the subroutine, innermost first. -/
  scopes : List Scope := []
  /-- Global variables by slot, bottom first. -/
  globals : List VarId := []
  /-- A value that was copied into the result and has not been returned. -/
  pendingReturn : Option NodeId := none
  /-- Deferred arguments that no call has taken, innermost first. -/
  closures : List NodeId := []
  /-- A loop that was opened last and still lacks the condition before its body. -/
  awaiting : Option NodeId := none
  /-- The dispatches of a switch that has not begun. -/
  dispatch : Option Dispatch := none
  /-- The last test for equality with a literal. -/
  comparison : Option Comparison := none
  /-- What the last instruction did. -/
  track : Option StepTrack := none
  /-- Position of the current instruction. -/
  position : Nat
  /-- Nothing follows that belongs to the subroutine. -/
  finished : Bool := false
  deriving Inhabited

/-- Steps of a recovery. -/
abbrev Recover := StateT Recovery (Except Fault)

namespace Recovery

/-- The largest position. -/
def lastPosition : Nat := 0xffffffff

/-- The innermost open node. -/
def current (recovery : Recovery) : NodeId :=
  match recovery.scopes with
  | scope :: _ => scope.node
  | [] => ScriptTree.root

/-- The range of a node that owns statements. -/
def range (recovery : Recovery) (node : NodeId) : Nat × Nat :=
  match (recovery.tree.node node).body? with
  | some body => (body.start, body.limit)
  | none => (0, lastPosition)

/-- Where the statements of a node end. -/
def limit (recovery : Recovery) (node : NodeId) : Nat :=
  (recovery.range node).2

/-- A position lies behind the innermost scope, if there is one. -/
def escapes (recovery : Recovery) (position : Nat) : Bool :=
  !recovery.scopes.isEmpty && recovery.limit recovery.current < position

/-- The recovery is inside a deferred argument. -/
def inClosure (recovery : Recovery) : Bool :=
  recovery.scopes.any fun scope => (recovery.tree.node scope.node).isClosure

/-- An entry is a variable that the script names. -/
def isNamed (recovery : Recovery) : StackEntry → Bool
  | .literal _ => false
  | .var id => recovery.tree.vars.kind id ≠ .temp

/-- Type of the value that an entry stands for. -/
def entryType (recovery : Recovery) : StackEntry → Ty
  | .literal node =>
      match recovery.tree.node node with
      | .literal value => .simple value.typeCode
      | _ => .invalid
  | .var id => recovery.tree.vars.type id

end Recovery

namespace Recover

/-- Give up on a shape of the control flow. -/
def unclassified {α : Type} (obstacle : Obstacle) : Recover α := do
  throw (.unclassified (← get).position obstacle)

/-- Change the tree. -/
def onTree (change : ScriptTree → ScriptTree) : Recover Unit :=
  modify fun recovery => { recovery with tree := change recovery.tree }

/-- Change the stack. -/
def onStack (change : SlotStack StackEntry → SlotStack StackEntry) : Recover Unit :=
  modify fun recovery => { recovery with stack := change recovery.stack }

/-- Add a detached node. -/
def addNode (node : Node) : Recover NodeId :=
  modifyGet fun recovery =>
    let (tree, id) := recovery.tree.add node
    (id, { recovery with tree })

/-- Copy an expression. -/
def duplicate (node : NodeId) : Recover NodeId :=
  modifyGet fun recovery =>
    let (tree, id) := recovery.tree.duplicate node
    (id, { recovery with tree })

/-- Add a variable. -/
def addVar (entry : Variable) : Recover VarId :=
  modifyGet fun recovery =>
    let (vars, id) := recovery.tree.vars.add entry
    (id, { recovery with tree := { recovery.tree with vars } })

/-- Change a variable. -/
def onVar (id : VarId) (change : Variable → Variable) : Recover Unit :=
  onTree fun tree => tree.modifyVar id change

/-- Group variables into an aggregate; none when some of them is not free. -/
def group (members : List VarId) : Recover (Option VarId) :=
  modifyGet fun recovery =>
    let (vars, id) := recovery.tree.vars.group members
    (id, { recovery with tree := { recovery.tree with vars } })

/-- Append a statement to the innermost open node. -/
def emit (statement : NodeId) : Recover Unit :=
  modify fun recovery =>
    { recovery with tree := recovery.tree.append recovery.current statement }

/-- Add a statement to the innermost open node. -/
def emitNode (node : Node) : Recover Unit := do
  emit (← addNode node)

/-- Open a scope that has a node of its own. -/
def enter (node : NodeId) : Recover Unit :=
  modify fun recovery =>
    { recovery with scopes := ⟨node, recovery.stack.height⟩ :: recovery.scopes }

/-- Add a statement with a body and open it. -/
def openNode (node : Node) : Recover NodeId := do
  let id ← addNode node
  emit id
  enter id
  return id

/-- The stand-in for a value that is missing. -/
def unknownOperand : Recover NodeId :=
  addNode (.placeholder Node.unknownOperand)

/-- Push an entry. -/
def push (entry : StackEntry) : Recover Unit :=
  onStack (·.push entry)

/-- Push an intermediate value of some width, at least one slot. -/
def pushValue (type : Ty) (value : NodeId) (width : Nat) : Recover VarId := do
  let id ← addVar (.temporary type value)
  onStack (·.pushAll (List.replicate (max width 1) (.var id)))
  return id

end Recover
end NwScript
