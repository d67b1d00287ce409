import NwScript.Script.Variables
import NwScript.Ty.StructTable

/-!
# Script trees

The nodes of one subroutine by number, with a link from each node to the node that holds or uses it.
Attaching and detaching keep the links; a detached node has none and cannot be reached from the root.
Searches through a tree are bounded by the number of its nodes, which no path of an acyclic tree
exceeds.
-/

namespace NwScript

/-- How a tree is printed. -/
inductive ScriptKind where
  /-- As a function. -/
  | function
  /-- As global declarations. -/
  | globals
  deriving DecidableEq, Repr, Inhabited

/-- Name, result and parameters of a function. -/
structure Signature where
  /-- Function name. -/
  name : String
  /-- Type of the result. -/
  returnType : Ty
  /-- Parameters in order. -/
  params : List VarId := []
  deriving DecidableEq, Repr, Inhabited

/-- The statements of one subroutine. -/
structure ScriptTree where
  /-- Nodes by number. -/
  nodes : Array Node
  /-- For each node the one that holds or uses it. -/
  parents : Array (Option NodeId)
  /-- Variables. -/
  vars : VarTable
  /-- The subroutine. -/
  sub : Nat
  /-- How the tree is printed. -/
  kind : ScriptKind
  /-- Signature of the function. -/
  signature : Signature
  /-- Names of aggregate types. -/
  structs : StructTable
  /-- One level of indentation. -/
  indent : String
  deriving Inhabited

namespace ScriptTree

/-- The body of the subroutine, which is the first node. -/
def root : NodeId := 0

/-- The tree with an empty body. -/
def start (sub : Nat) (kind : ScriptKind) (signature : Signature) (first limit : Nat)
    (indent : String) : ScriptTree where
  nodes := #[.block { start := first, limit }]
  parents := #[none]
  vars := .empty
  sub := sub
  kind := kind
  signature := signature
  structs := .empty
  indent := indent

/-- Number of nodes, reachable or not. -/
def size (tree : ScriptTree) : Nat :=
  tree.nodes.size

/-- A node by number. -/
def node (tree : ScriptTree) (id : NodeId) : Node :=
  tree.nodes.getD id (.placeholder Node.unknownOperand)

/-- The node that holds or uses another one. -/
def parent? (tree : ScriptTree) (id : NodeId) : Option NodeId :=
  tree.parents[id]?.join

/-- Child statements of a node. -/
def children (tree : ScriptTree) (id : NodeId) : List NodeId :=
  ((tree.node id).body?.map (·.children)).getD []

/-- Link a node to the one that holds or uses it. -/
def setParent (tree : ScriptTree) (id : NodeId) (parent : Option NodeId) : ScriptTree :=
  { tree with parents := tree.parents.setIfInBounds id parent }

/-- Change a node. -/
def modify (tree : ScriptTree) (id : NodeId) (change : Node → Node) : ScriptTree :=
  { tree with nodes := tree.nodes.modify id change }

/-- Change a variable. -/
def modifyVar (tree : ScriptTree) (id : VarId) (change : Variable → Variable) : ScriptTree :=
  { tree with vars := tree.vars.modify id change }

/-- Add a detached node, which becomes the user of its operands. -/
def add (tree : ScriptTree) (node : Node) : ScriptTree × NodeId :=
  let id := tree.size
  let linked := node.operands.foldl (fun tree operand => tree.setParent operand (some id)) tree
  ({ linked with nodes := linked.nodes.push node, parents := linked.parents.push none }, id)

/-- Append a statement to a body. -/
def append (tree : ScriptTree) (parent child : NodeId) : ScriptTree :=
  if (tree.node parent).body?.isSome then
    (tree.modify parent (Node.mapBody fun body =>
      { body with children := body.children ++ [child] })).setParent child (some parent)
  else
    tree

/-- Insert a statement into a body before the one at an index, or at the end. -/
def insert (tree : ScriptTree) (parent : NodeId) (index : Nat) (child : NodeId) : ScriptTree :=
  if (tree.node parent).body?.isSome then
    (tree.modify parent (Node.mapBody fun body =>
      { body with
        children := body.children.take index ++ child :: body.children.drop index })).setParent
      child (some parent)
  else
    tree

/-- The body that holds a statement and the index of the statement in it. -/
def slot? (tree : ScriptTree) (child : NodeId) : Option (NodeId × Nat) := do
  let parent ← tree.parent? child
  let index ← (tree.children parent).idxOf? child
  return (parent, index)

/-- Take a statement out of its body; gives the index it had. -/
def detach (tree : ScriptTree) (child : NodeId) : ScriptTree × Option Nat :=
  match tree.slot? child with
  | some (parent, index) =>
      ((tree.modify parent (Node.mapBody fun body =>
        { body with children := body.children.eraseIdx index })).setParent child none, some index)
  | none => (tree, none)

/-- Put a statement in the place of another one; says whether that one was in a body. -/
def replace (tree : ScriptTree) (old new : NodeId) : ScriptTree × Bool :=
  match tree.slot? old with
  | some (parent, index) =>
      (((tree.modify parent (Node.mapBody fun body =>
        { body with children := body.children.set index new })).setParent old none).setParent new
          (some parent), true)
  | none => (tree, false)

/-- Put one statement in the place of several: the first is replaced and the others go. -/
def replaceAll (tree : ScriptTree) (statement : NodeId) : List NodeId → ScriptTree
  | [] => tree
  | first :: others =>
      others.foldl (fun tree other => (tree.detach other).1) (tree.replace first statement).1

/-- Record the declaration of an aggregate in place of those of its members. -/
def declareWhole (tree : ScriptTree) (aggregate : VarId) (declaration : NodeId) : ScriptTree :=
  ((tree.vars.members aggregate).foldl
    (fun tree member => tree.modifyVar member fun entry => { entry with declaration := none })
    tree).modifyVar aggregate fun entry => { entry with declaration := some declaration }

/-- Copy an expression at most `depth` nodes deep, operands first. -/
def duplicateFrom : (depth : Nat) → NodeId → StateM ScriptTree NodeId
  | 0, id => pure id
  | depth + 1, id => do
      let copy ← ((← get).node id).mapOperandsM (duplicateFrom depth)
      modifyGet fun tree =>
        let (tree, id) := tree.add copy
        (id, tree)

/-- Copy an expression; the copy is detached. -/
def duplicate (tree : ScriptTree) (id : NodeId) : ScriptTree × NodeId :=
  let (copy, tree) := (duplicateFrom (tree.size + 1) id).run tree
  (tree, copy)

/-- Some node that an expression evaluates, at most `depth` nodes deep, passes a test. -/
def evaluates (tree : ScriptTree) (test : Node → Bool) : (depth : Nat) → NodeId → Bool
  | 0, _ => false
  | depth + 1, id =>
      test (tree.node id) || (tree.node id).operands.any (evaluates tree test depth)

/-- Evaluating an expression can change the state of the program. -/
def hasSideEffects (tree : ScriptTree) (id : NodeId) : Bool :=
  tree.evaluates Node.isEffect (tree.size + 1) id

/-- The nodes below one, each before its operands and these before its child statements. -/
def walkFrom (tree : ScriptTree) : (depth : Nat) → NodeId → List NodeId
  | 0, _ => []
  | depth + 1, id =>
      id :: ((tree.node id).operands ++ tree.children id).flatMap (walkFrom tree depth)

/-- The nodes that can be reached from the root. -/
def walk (tree : ScriptTree) : List NodeId :=
  tree.walkFrom (tree.size + 1) root

/-- A name of the kind that is reserved for what was not recovered. -/
def isReserved (name : String) : Bool :=
  "__".isPrefixOf name

/-- A node that stands for something that was not recovered. -/
def isPlaceholder : Node → Bool
  | .placeholder _ | .comment _ => true
  | .action _ name _ => isReserved name
  | _ => false

/-- The variable that a node names, where naming it can show a reserved name. -/
def namedVar? (tree : ScriptTree) : Node → Option VarId
  | .reference var => some (tree.vars.root var)
  | .declaration var _ _ => some var
  | _ => none

/-- A variable with a reserved name. -/
def isUnresolved (entry : Variable) : Bool :=
  (entry.kind = .localVar || entry.kind = .param || entry.kind = .global) &&
    entry.name.any isReserved

/-- Number of stand-ins: nodes that can be reached, and variables with reserved names, each once. -/
def placeholderCount (tree : ScriptTree) : Nat :=
  let nodes := tree.walk.map tree.node
  let used := (tree.signature.params ++ nodes.filterMap tree.namedVar?).eraseDups
  nodes.countP isPlaceholder + (used.filterMap tree.vars.get?).countP isUnresolved

/-- Source name of a variable, through at most `depth` enclosing aggregates. -/
def varNameFrom (tree : ScriptTree) : (depth : Nat) → VarId → String
  | depth, id =>
      match tree.vars.get? id with
      | none => Node.unknownOperand
      | some entry =>
          match depth, entry.parent with
          | depth + 1, some parent =>
              let index := ((tree.vars.members parent).idxOf? id).getD 0
              varNameFrom tree depth parent ++ "." ++
                VarTable.memberName (tree.vars.type parent) index
          | _, _ => entry.name.getD ("__var" ++ toString id)

/-- Source name of a variable; a member is named after its aggregate. -/
def varName (tree : ScriptTree) (id : VarId) : String :=
  tree.varNameFrom tree.vars.size id

@[simp]
theorem size_setParent (tree : ScriptTree) (id : NodeId) (parent : Option NodeId) :
    (tree.setParent id parent).size = tree.size := rfl

@[simp]
theorem size_modify (tree : ScriptTree) (id : NodeId) (change : Node → Node) :
    (tree.modify id change).size = tree.size := by
  simp [modify, size]

@[simp]
theorem nodes_setParents (tree : ScriptTree) (ids : List NodeId) (parent : Option NodeId) :
    (ids.foldl (fun tree id => tree.setParent id parent) tree).nodes = tree.nodes := by
  induction ids generalizing tree with
  | nil => rfl
  | cons id ids induction =>
      rw [List.foldl_cons, induction]
      rfl

/-- An added node has the number of nodes before it. -/
@[simp]
theorem add_snd (tree : ScriptTree) (node : Node) : (tree.add node).2 = tree.size := rfl

@[simp]
theorem nodes_add (tree : ScriptTree) (node : Node) :
    (tree.add node).1.nodes = tree.nodes.push node := by
  simp [add]

@[simp]
theorem size_add (tree : ScriptTree) (node : Node) :
    (tree.add node).1.size = tree.size + 1 := by
  simp [size]

@[simp]
theorem node_add_self (tree : ScriptTree) (node : Node) :
    (tree.add node).1.node tree.size = node := by
  simp [ScriptTree.node, size]

/-- Adding a node leaves the others as they are. -/
theorem node_add_of_lt {tree : ScriptTree} {id : NodeId} (node : Node) (old : id < tree.size) :
    (tree.add node).1.node id = tree.node id := by
  have bound : id < tree.nodes.size := old
  simp [ScriptTree.node, Array.getD_eq_getD_getElem?, Array.getElem?_push_lt, bound]

end ScriptTree
end NwScript
