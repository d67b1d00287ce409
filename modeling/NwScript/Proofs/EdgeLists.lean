import NwScript.Proofs.ComponentOrder

/-!
# Edges and their two lists

A graph keeps every edge twice, with those that leave its source and with those that enter its target, and
counts it once.  Against this stands one list of all edges that were added.  Both lists of a node are parts
of that list, in its order, however nodes and edges were added and whichever edges were refused.
-/

namespace NwScript

namespace Digraph

variable {ε : Type}

/-- An edge with its two ends. -/
structure Link (ε : Type) where
  /-- Where it begins. -/
  source : Nat
  /-- Where it ends. -/
  target : Nat
  /-- What it carries. -/
  label : ε

/-- What can be done to a graph. -/
inductive Operation (ε : Type) where
  /-- Add a node. -/
  | addNode
  /-- Add an edge. -/
  | addEdge (link : Link ε)

/-- Do something to a graph: why it is refused, if it is, and the graph behind it. -/
def perform (graph : Digraph ε) : Operation ε → Option Fault × Digraph ε
  | .addNode => (none, graph.addNode)
  | .addEdge link =>
      match graph.addEdge link.source link.target link.label with
      | .ok larger => (none, larger)
      | .error fault => (some fault, graph)

/-- The graph behind some operations. -/
def run (graph : Digraph ε) (operations : List (Operation ε)) : Digraph ε :=
  operations.foldl (fun graph operation => (graph.perform operation).2) graph

/-- The edge that an operation adds to a graph, unless it is refused. -/
def link? (graph : Digraph ε) : Operation ε → Option (Link ε)
  | .addNode => none
  | .addEdge link => if (graph.perform (.addEdge link)).1.isNone then some link else none

/-- The edges that some operations add, in order. -/
def links (graph : Digraph ε) : List (Operation ε) → List (Link ε)
  | [] => []
  | operation :: operations =>
      (graph.link? operation).toList ++ (graph.perform operation).2.links operations

/-- The lists of a graph are parts of a list of edges. -/
structure Lists (graph : Digraph ε) (links : List (Link ε)) : Prop where
  /-- The edges that leave a node are those with it as source. -/
  outgoing : ∀ node, graph.outgoingEdges node =
    (links.filter (·.source = node)).map fun link => (link.target, link.label)
  /-- The edges that enter a node are those with it as target. -/
  incoming : ∀ node, graph.incomingEdges node =
    (links.filter (·.target = node)).map fun link => (link.source, link.label)
  /-- All edges are counted. -/
  counted : graph.edgeCount = links.length
  /-- Both ends of an edge are nodes. -/
  inside : ∀ link ∈ links, link.source < graph.nodeCount ∧ link.target < graph.nodeCount
  /-- There is as much room for the edges that enter a node as for those that leave it. -/
  room : graph.incoming.size = graph.outgoing.size

section Step

variable {graph larger : Digraph ε} {links : List (Link ε)}

theorem Lists.addNode (lists : graph.Lists links) : graph.addNode.Lists links where
  outgoing := fun node => by rw [outgoingEdges_addNode, lists.outgoing]
  incoming := fun node => by rw [incomingEdges_addNode, lists.incoming]
  counted := lists.counted
  inside := fun link listed => by
    rw [nodeCount_addNode]
    exact (lists.inside link listed).imp Nat.lt_succ_of_lt Nat.lt_succ_of_lt
  room := by simp [Digraph.addNode, lists.room]

theorem Lists.addEdge (lists : graph.Lists links) {link : Link ε}
    (added : graph.addEdge link.source link.target link.label = .ok larger) :
    larger.Lists (links ++ [link]) where
  outgoing := fun node => by
    rw [outgoingEdges_addEdge added, lists.outgoing, List.filter_append, List.map_append,
      List.filter_singleton]
    by_cases leaves : node = link.source
    · simp [leaves]
    · simp [leaves, Ne.symm leaves]
  incoming := fun node => by
    rw [incomingEdges_addEdge lists.room added, lists.incoming, List.filter_append, List.map_append,
      List.filter_singleton]
    by_cases enters : node = link.target
    · simp [enters]
    · simp [enters, Ne.symm enters]
  counted := by rw [edgeCount_addEdge added, lists.counted, List.length_append, List.length_singleton]
  inside := by
    obtain ⟨source, target, -⟩ := addEdge_eq_ok added
    rw [nodeCount_addEdge added, List.forall_mem_append, List.forall_mem_singleton]
    exact ⟨lists.inside, source, target⟩
  room := by
    obtain ⟨-, -, rfl⟩ := addEdge_eq_ok added
    simpa using lists.room

/-- Whatever is done, the lists hold the edge that it adds behind the others. -/
theorem Lists.perform (lists : graph.Lists links) (operation : Operation ε) :
    (graph.perform operation).2.Lists (links ++ (graph.link? operation).toList) := by
  cases operation with
  | addNode => simpa [Digraph.perform, link?] using lists.addNode
  | addEdge link =>
      rw [link?, Digraph.perform]
      cases added : graph.addEdge link.source link.target link.label with
      | ok larger => exact lists.addEdge added
      | error fault => simpa using lists

theorem Lists.run (lists : graph.Lists links) (operations : List (Operation ε)) :
    (graph.run operations).Lists (links ++ graph.links operations) := by
  induction operations generalizing graph links with
  | nil => simpa [Digraph.links, Digraph.run] using lists
  | cons operation operations induction =>
      rw [Digraph.links, ← List.append_assoc]
      exact induction (lists.perform operation)

end Step

/-- Parallel edges are listed apart, and an edge to a missing node is left out. -/
example :
    let graph := (empty : Digraph Char).run
      [.addNode, .addNode, .addEdge ⟨0, 1, 'a'⟩, .addEdge ⟨0, 5, 'b'⟩, .addEdge ⟨0, 1, 'c'⟩]
    graph.outgoingEdges 0 = [(1, 'a'), (1, 'c')] ∧ graph.predecessors 1 = [0, 0] ∧
      graph.edgeCount = 2 := by
  decide

end Digraph
end NwScript
