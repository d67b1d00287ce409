import NwScript.Fault

/-!
# Directed graphs

Nodes are numbered in the order they are added.  Every edge carries a label and is listed twice, with
the edges that leave its source and with those that enter its target, both in the order of addition.
Self loops and parallel edges are allowed.
-/

namespace NwScript

/-- A directed graph with labelled edges. -/
structure Digraph (ε : Type) where
  /-- For each node the targets and labels of the edges that leave it. -/
  outgoing : Array (List (Nat × ε))
  /-- For each node the sources and labels of the edges that enter it. -/
  incoming : Array (List (Nat × ε))
  /-- Number of edges. -/
  edgeCount : Nat
  deriving Repr, Inhabited

namespace Digraph

variable {ε : Type}

/-- The graph without nodes. -/
def empty : Digraph ε := ⟨#[], #[], 0⟩

/-- Number of nodes. -/
def nodeCount (graph : Digraph ε) : Nat :=
  graph.outgoing.size

/-- Add a node; its number is the previous node count. -/
def addNode (graph : Digraph ε) : Digraph ε :=
  { graph with outgoing := graph.outgoing.push [], incoming := graph.incoming.push [] }

/-- The graph with a number of nodes and no edges. -/
def discrete (count : Nat) : Digraph ε :=
  ⟨Array.replicate count [], Array.replicate count [], 0⟩

/-- Add an edge between two existing nodes. -/
def addEdge (graph : Digraph ε) (source target : Nat) (label : ε) : Except Fault (Digraph ε) :=
  if graph.nodeCount ≤ source then
    .error (.graph (.missingNode .source source graph.nodeCount))
  else if graph.nodeCount ≤ target then
    .error (.graph (.missingNode .target target graph.nodeCount))
  else
    .ok
      { outgoing := graph.outgoing.modify source (· ++ [(target, label)])
        incoming := graph.incoming.modify target (· ++ [(source, label)])
        edgeCount := graph.edgeCount + 1 }

/-- Targets and labels of the edges that leave a node, in the order of addition. -/
def outgoingEdges (graph : Digraph ε) (node : Nat) : List (Nat × ε) :=
  graph.outgoing.getD node []

/-- Sources and labels of the edges that enter a node, in the order of addition. -/
def incomingEdges (graph : Digraph ε) (node : Nat) : List (Nat × ε) :=
  graph.incoming.getD node []

/-- Targets of the edges that leave a node. -/
def successors (graph : Digraph ε) (node : Nat) : List Nat :=
  (graph.outgoingEdges node).map (·.1)

/-- Sources of the edges that enter a node. -/
def predecessors (graph : Digraph ε) (node : Nat) : List Nat :=
  (graph.incomingEdges node).map (·.1)

/-- Some edge leads from one node to another. -/
def hasEdge (graph : Digraph ε) (source target : Nat) : Bool :=
  (graph.successors source).contains target

/-- All nodes. -/
def nodes (graph : Digraph ε) : List Nat :=
  List.range graph.nodeCount

@[simp]
theorem nodeCount_addNode (graph : Digraph ε) : graph.addNode.nodeCount = graph.nodeCount + 1 := by
  simp [addNode, nodeCount]

@[simp]
theorem nodeCount_discrete (count : Nat) : (discrete count : Digraph ε).nodeCount = count := by
  simp [discrete, nodeCount]

end Digraph
end NwScript
