import Mathlib.Data.List.Basic
import Mathlib.Logic.Relation
import NwScript.Graph.Components

/-!
# Orders of components

A list of strongly connected components is in order when every node is in one of them, the nodes that
reach each other share one, and each component comes after the others that its edges lead to.  Such a
list grows by a component whose edges stay in it or lead to the ones before.
-/

namespace NwScript
namespace Digraph

variable {ε : Type}

/-- Some edge leads from one node to another. -/
def Edge (graph : Digraph ε) (source target : Nat) : Prop :=
  target ∈ graph.successors source

/-- Some path, possibly of no edges, leads from one node to another. -/
def Reaches (graph : Digraph ε) : Nat → Nat → Prop :=
  Relation.ReflTransGen graph.Edge

/-- Every edge ends in a node of the graph. -/
def IsProper (graph : Digraph ε) : Prop :=
  ∀ source target, graph.Edge source target → target < graph.nodeCount

/-- An edge begins at a node of the graph. -/
theorem Edge.source_lt {graph : Digraph ε} {source target : Nat} (edge : graph.Edge source target) :
    source < graph.nodeCount := by
  by_contra outside
  have absent : graph.outgoing[source]? = none :=
    Array.getElem?_eq_none (Nat.not_lt.mp outside)
  simp [Edge, successors, outgoingEdges, Array.getD_eq_getD_getElem?, absent] at edge

theorem outgoingEdges_discrete (count node : Nat) :
    (discrete count : Digraph ε).outgoingEdges node = [] := by
  rw [outgoingEdges, discrete, Array.getD_eq_getD_getElem?, Array.getElem?_replicate]
  split <;> rfl

theorem incomingEdges_discrete (count node : Nat) :
    (discrete count : Digraph ε).incomingEdges node = [] := by
  rw [incomingEdges, discrete, Array.getD_eq_getD_getElem?, Array.getElem?_replicate]
  split <;> rfl

theorem not_edge_discrete (count : Nat) {source target : Nat} :
    ¬(discrete count : Digraph ε).Edge source target := by
  rw [Edge, successors, outgoingEdges_discrete]
  exact List.not_mem_nil

theorem isProper_discrete (count : Nat) : (discrete count : Digraph ε).IsProper :=
  fun _ _ edge => absurd edge (not_edge_discrete count)

/-- An empty list behind an array reads like none. -/
theorem getD_push_nil {α : Type} (lists : Array (List α)) (place : Nat) :
    (lists.push []).getD place [] = lists.getD place [] := by
  rw [Array.getD_eq_getD_getElem?, Array.getD_eq_getD_getElem?, Array.getElem?_push]
  split
  · rename_i same
    rw [Array.getElem?_eq_none (Nat.le_of_eq same.symm)]
    rfl
  · rfl

@[simp]
theorem outgoingEdges_addNode (graph : Digraph ε) (node : Nat) :
    graph.addNode.outgoingEdges node = graph.outgoingEdges node :=
  getD_push_nil _ _

@[simp]
theorem incomingEdges_addNode (graph : Digraph ε) (node : Nat) :
    graph.addNode.incomingEdges node = graph.incomingEdges node :=
  getD_push_nil _ _

theorem IsProper.addNode {graph : Digraph ε} (proper : graph.IsProper) :
    graph.addNode.IsProper := by
  intro source target edge
  rw [nodeCount_addNode]
  rw [Edge, successors, outgoingEdges_addNode] at edge
  exact Nat.lt_succ_of_lt (proper source target edge)

/-- An edge is added between nodes of the graph, at the end of the lists of both. -/
theorem addEdge_eq_ok {graph larger : Digraph ε} {source target : Nat} {label : ε}
    (added : graph.addEdge source target label = .ok larger) :
    source < graph.nodeCount ∧ target < graph.nodeCount ∧
      larger =
        { outgoing := graph.outgoing.modify source (· ++ [(target, label)])
          incoming := graph.incoming.modify target (· ++ [(source, label)])
          edgeCount := graph.edgeCount + 1 } := by
  unfold Digraph.addEdge at added
  split at added
  · cases added
  · split at added
    · cases added
    · cases added
      exact ⟨Nat.not_le.mp ‹_›, Nat.not_le.mp ‹_›, rfl⟩

theorem nodeCount_addEdge {graph larger : Digraph ε} {source target : Nat} {label : ε}
    (added : graph.addEdge source target label = .ok larger) : larger.nodeCount = graph.nodeCount := by
  obtain ⟨-, -, rfl⟩ := addEdge_eq_ok added
  exact Array.size_modify

theorem edgeCount_addEdge {graph larger : Digraph ε} {source target : Nat} {label : ε}
    (added : graph.addEdge source target label = .ok larger) :
    larger.edgeCount = graph.edgeCount + 1 := by
  obtain ⟨-, -, rfl⟩ := addEdge_eq_ok added
  rfl

/-- A list at one place of an array grows by an element. -/
theorem getD_modify_append {α : Type} {lists : Array (List α)} {place : Nat} (inside : place < lists.size)
    (element : α) (other : Nat) : (lists.modify place (· ++ [element])).getD other [] =
      lists.getD other [] ++ if other = place then [element] else [] := by
  rw [Array.getD_eq_getD_getElem?, Array.getD_eq_getD_getElem?, Array.getElem?_modify]
  by_cases same : other = place
  · subst same
    rw [if_pos rfl, if_pos rfl, Array.getElem?_eq_getElem inside]
    rfl
  · rw [if_neg (Ne.symm same), if_neg same, List.append_nil]

/-- A new edge is the last of those that leave its source. -/
theorem outgoingEdges_addEdge {graph larger : Digraph ε} {source target : Nat} {label : ε}
    (added : graph.addEdge source target label = .ok larger) (node : Nat) :
    larger.outgoingEdges node =
      graph.outgoingEdges node ++ if node = source then [(target, label)] else [] := by
  obtain ⟨known, -, rfl⟩ := addEdge_eq_ok added
  exact getD_modify_append known _ _

/-- It is the last of those that enter its target, if there is room for as many lists of these. -/
theorem incomingEdges_addEdge {graph larger : Digraph ε} {source target : Nat} {label : ε}
    (room : graph.incoming.size = graph.outgoing.size)
    (added : graph.addEdge source target label = .ok larger) (node : Nat) :
    larger.incomingEdges node =
      graph.incomingEdges node ++ if node = target then [(source, label)] else [] := by
  obtain ⟨-, known, rfl⟩ := addEdge_eq_ok added
  exact getD_modify_append (room ▸ known) _ _

/-- Only one edge is new. -/
theorem edge_addEdge_iff {graph larger : Digraph ε} {source target first last : Nat} {label : ε}
    (added : graph.addEdge source target label = .ok larger) :
    larger.Edge first last ↔ graph.Edge first last ∨ first = source ∧ last = target := by
  rw [Edge, Edge, successors, successors, outgoingEdges_addEdge added, List.map_append, List.mem_append]
  split
  · rename_i same
    simp [same]
  · rename_i apart
    simp [apart]

theorem IsProper.addEdge {graph larger : Digraph ε} {source target : Nat} {label : ε}
    (proper : graph.IsProper) (added : graph.addEdge source target label = .ok larger) :
    larger.IsProper := by
  intro first last edge
  rw [nodeCount_addEdge added]
  rcases (edge_addEdge_iff added).mp edge with old | ⟨-, rfl⟩
  · exact proper first last old
  · exact (addEdge_eq_ok added).2.1

/-- A list of components: every node is in exactly one of them, they hold the nodes that reach each
other, and each comes after the others that its edges lead to. -/
structure IsComponentOrder (graph : Digraph ε) (components : List (List Nat)) : Prop where
  /-- No component is empty. -/
  nonempty : ∀ component ∈ components, component ≠ []
  /-- Every node occurs once. -/
  partition : components.flatten.Perm graph.nodes
  /-- Nodes share a component if and only if they reach each other. -/
  connected : ∀ left < graph.nodeCount, ∀ right < graph.nodeCount,
    (∃ component ∈ components, left ∈ component ∧ right ∈ component) ↔
      graph.Reaches left right ∧ graph.Reaches right left
  /-- An edge between different components leads to the one listed first. -/
  ordered : ∀ {i j : Nat} (hi : i < components.length) (hj : j < components.length), i ≠ j →
    ∀ source ∈ components[i], ∀ target ∈ components[j], graph.Edge source target → j < i

variable {graph : Digraph ε}

/-- Components, the last one first: the nodes of each reach each other, and the edges of each stay in
it or lead to earlier ones. -/
def Settled (graph : Digraph ε) : List (List Nat) → Prop
  | [] => True
  | component :: earlier =>
      component ≠ [] ∧
      (∀ left ∈ component, ∀ right ∈ component, graph.Reaches left right) ∧
      (∀ source ∈ component, ∀ target, graph.Edge source target →
        target ∈ component ∨ target ∈ earlier.flatten) ∧
      Settled graph earlier

/-- No edge leaves the complete components. -/
theorem Settled.mem_of_edge {components : List (List Nat)} (settled : Settled graph components)
    {source target : Nat} (edge : graph.Edge source target)
    (start : source ∈ components.flatten) : target ∈ components.flatten := by
  induction components with
  | nil => simp at start
  | cons component earlier induction =>
      obtain ⟨_, _, edges, below⟩ := settled
      rw [List.flatten_cons, List.mem_append] at start ⊢
      rcases start with inComponent | inEarlier
      · exact edges source inComponent target edge
      · exact .inr (induction below inEarlier)

theorem Settled.mem_of_reaches {components : List (List Nat)}
    (settled : Settled graph components) {source target : Nat} (path : graph.Reaches source target)
    (start : source ∈ components.flatten) : target ∈ components.flatten := by
  induction path with
  | refl => exact start
  | tail _ edge reached => exact settled.mem_of_edge edge reached

/-- Complete components hold the nodes that reach each other. -/
theorem Settled.connected {components : List (List Nat)} (settled : Settled graph components)
    (nodup : components.flatten.Nodup) {left right : Nat} (leftIn : left ∈ components.flatten) :
    (∃ component ∈ components, left ∈ component ∧ right ∈ component) ↔
      graph.Reaches left right ∧ graph.Reaches right left := by
  constructor
  · rintro ⟨component, listed, inLeft, inRight⟩
    obtain ⟨later, earlier, rfl⟩ := List.append_of_mem listed
    have tail : Settled graph (component :: earlier) := by
      clear nodup leftIn listed
      induction later with
      | nil => exact settled
      | cons _ later induction => exact induction settled.2.2.2
    exact ⟨tail.2.1 left inLeft right inRight, tail.2.1 right inRight left inLeft⟩
  · rintro ⟨forth, back⟩
    induction components with
    | nil => simp at leftIn
    | cons component earlier induction =>
        rw [List.flatten_cons] at nodup
        obtain ⟨_, earlierNodup, apart⟩ := List.nodup_append.mp nodup
        have below : Settled graph earlier := settled.2.2.2
        rw [List.flatten_cons, List.mem_append] at leftIn
        rcases leftIn with inComponent | inEarlier
        · have rightIn := settled.mem_of_reaches forth (by simp [inComponent])
          rw [List.flatten_cons, List.mem_append] at rightIn
          rcases rightIn with here | there
          · exact ⟨component, List.mem_cons_self, inComponent, here⟩
          · exact absurd rfl (apart left inComponent left (below.mem_of_reaches back there))
        · obtain ⟨found, listed, both⟩ := induction below earlierNodup inEarlier
          exact ⟨found, List.mem_cons_of_mem _ listed, both⟩

/-- No edge leads from a complete component to one that was completed later. -/
theorem Settled.pairwise {components : List (List Nat)} (settled : Settled graph components)
    (nodup : components.flatten.Nodup) :
    components.Pairwise fun later earlier =>
      ∀ source ∈ earlier, ∀ target ∈ later, ¬ graph.Edge source target := by
  induction components with
  | nil => exact .nil
  | cons component earlier induction =>
      rw [List.flatten_cons] at nodup
      obtain ⟨_, earlierNodup, apart⟩ := List.nodup_append.mp nodup
      have below : Settled graph earlier := settled.2.2.2
      refine .cons (fun other listed source inOther target inComponent edge => ?_)
        (induction below earlierNodup)
      have stays := below.mem_of_edge edge (List.mem_flatten.mpr ⟨other, listed, inOther⟩)
      exact apart target inComponent target stays rfl

theorem Settled.ne_nil {components : List (List Nat)} (settled : Settled graph components) :
    ∀ component ∈ components, component ≠ [] := by
  induction components with
  | nil => simp
  | cons component earlier induction =>
      intro other listed
      rcases List.mem_cons.mp listed with rfl | deeper
      · exact settled.1
      · exact induction settled.2.2.2 other deeper

/-- Settled components of all nodes are in order when the last one is put first. -/
theorem Settled.isComponentOrder {components : List (List Nat)}
    (settled : Settled graph components) (perm : components.flatten.Perm graph.nodes) :
    graph.IsComponentOrder components.reverse := by
  have nodup : components.flatten.Nodup := perm.nodup_iff.mpr List.nodup_range
  constructor
  · intro component listed
    exact settled.ne_nil component (List.mem_reverse.mp listed)
  · exact ((List.reverse_perm components).flatten).trans perm
  · intro left leftIn right rightIn
    have listed : left ∈ components.flatten := perm.mem_iff.mpr (List.mem_range.mpr leftIn)
    simp only [List.mem_reverse]
    exact settled.connected nodup listed
  · intro i j hi hj different source inSource target inTarget edge
    have ordered := List.pairwise_iff_getElem.mp
      (List.pairwise_reverse.mpr (settled.pairwise nodup))
    by_contra late
    exact ordered i j hi hj (by omega) source inSource target inTarget edge

/-- Rearranging each component keeps the order of components. -/
theorem IsComponentOrder.map {components : List (List Nat)}
    (order : graph.IsComponentOrder components) {arrange : List Nat → List Nat}
    (same : ∀ component, (arrange component).Perm component) :
    graph.IsComponentOrder (components.map arrange) := by
  constructor
  · intro component listed
    obtain ⟨original, inside, rfl⟩ := List.mem_map.mp listed
    intro empty
    have perm := same original
    rw [empty] at perm
    exact order.nonempty original inside perm.symm.eq_nil
  · refine List.Perm.trans ?_ order.partition
    clear order
    induction components with
    | nil => exact .nil
    | cons component rest induction =>
        rw [List.map_cons, List.flatten_cons, List.flatten_cons]
        exact (same component).append induction
  · intro left leftIn right rightIn
    rw [← order.connected left leftIn right rightIn]
    simp only [List.mem_map, exists_exists_and_eq_and, (same _).mem_iff]
  · intro i j hi hj different source inSource target inTarget edge
    rw [List.length_map] at hi hj
    rw [List.getElem_map, (same _).mem_iff] at inSource inTarget
    exact order.ordered hi hj different source inSource target inTarget edge

end Digraph
end NwScript
