import NwScript.Graph.Digraph

/-!
# Strongly connected components

A depth-first search numbers the nodes in the order in which it meets them and keeps those whose
component is not complete on a stack.  The low link of a node on the stack is the smallest number
known to be reachable from it through the stack.  A node that is left with its own number as low link
is the lowest one of its component, and everything from it up to the top of the stack is popped.
The nodes under exploration are kept in frames, so that the search is a plain loop.

Components are completed after all others that their edges lead to.  The condensation is the graph
of the components.
-/

namespace NwScript
namespace Digraph

variable {ε : Type}

/-- Progress of a search for components. -/
structure ComponentSearch where
  /-- Number of each node in the order of discovery, once it is met. -/
  indices : Array (Option Nat)
  /-- Low link of each node that was met. -/
  lowLinks : Array Nat
  /-- Whether each node is on the stack. -/
  onStack : Array Bool
  /-- Nodes met whose component is not complete, the last one first. -/
  stack : List Nat
  /-- Number of nodes met. -/
  met : Nat
  /-- Complete components, the last one first, each in the order of its nodes on the stack. -/
  complete : List (List Nat)
  /-- Nodes under exploration with the ends of their edges still to follow, innermost first. -/
  frames : List (Nat × List Nat)
  deriving DecidableEq, Repr, Inhabited

namespace ComponentSearch

/-- The search before any node is met. -/
def start (nodeCount : Nat) : ComponentSearch where
  indices := Array.replicate nodeCount none
  lowLinks := Array.replicate nodeCount 0
  onStack := Array.replicate nodeCount false
  stack := []
  met := 0
  complete := []
  frames := []

/-- Number of a node that was met. -/
def index? (search : ComponentSearch) (node : Nat) : Option Nat :=
  search.indices[node]?.join

/-- Low link of a node. -/
def lowLink (search : ComponentSearch) (node : Nat) : Nat :=
  search.lowLinks.getD node 0

/-- A node is on the stack. -/
def holds (search : ComponentSearch) (node : Nat) : Bool :=
  search.onStack.getD node false

/-- Meet a node and begin to explore it.  The last of its edges is followed first. -/
def enter (graph : Digraph ε) (search : ComponentSearch) (node : Nat) : ComponentSearch :=
  { search with
    indices := search.indices.setIfInBounds node (some search.met)
    lowLinks := search.lowLinks.setIfInBounds node search.met
    onStack := search.onStack.setIfInBounds node true
    stack := node :: search.stack
    met := search.met + 1
    frames := (node, (graph.successors node).reverse) :: search.frames }

/-- Lower the low link of a node to at most some number. -/
def lower (search : ComponentSearch) (node bound : Nat) : ComponentSearch :=
  { search with lowLinks := search.lowLinks.modify node (min · bound) }

/-- Follow an edge from a node to another one.  A node outside the graph has no place in the search. -/
def follow (graph : Digraph ε) (search : ComponentSearch) (source target : Nat) :
    ComponentSearch :=
  match search.indices[target]? with
  | some none => search.enter graph target
  | some (some index) => if search.holds target then search.lower source index else search
  | none => search

/-- Split a stack behind a node: the nodes down to it, and the rest. -/
def popThrough (node : Nat) : List Nat → List Nat × List Nat
  | [] => ([], [])
  | top :: rest =>
      if top = node then
        ([top], rest)
      else
        (top :: (popThrough node rest).1, (popThrough node rest).2)

/-- Complete the component of which a node is the lowest one on the stack. -/
def close (search : ComponentSearch) (node : Nat) : ComponentSearch :=
  let (component, rest) := popThrough node search.stack
  { search with
    onStack := component.foldl (fun onStack member => onStack.setIfInBounds member false)
      search.onStack
    stack := rest
    complete := component :: search.complete }

/-- Tell the node under exploration around another one what can be reached from that one. -/
def propagate (search : ComponentSearch) (node : Nat) : ComponentSearch :=
  match search.frames with
  | (parent, _) :: _ => search.lower parent (search.lowLink node)
  | [] => search

/-- Leave a node of which every edge was followed. -/
def leave (search : ComponentSearch) (node : Nat) : ComponentSearch :=
  let told := search.propagate node
  if told.index? node = some (told.lowLink node) then told.close node else told

/-- Follow the next edge of the innermost node under exploration, or leave that node. -/
def step (graph : Digraph ε) (search : ComponentSearch) : ComponentSearch :=
  match search.frames with
  | [] => search
  | (node, []) :: outer => { search with frames := outer }.leave node
  | (node, target :: targets) :: outer =>
      { search with frames := (node, targets) :: outer }.follow graph node target

/-- Number of nodes not met. -/
def unmet (search : ComponentSearch) : Nat :=
  search.indices.count none

/-- Number of edges to follow and of nodes to leave. -/
def pending (search : ComponentSearch) : Nat :=
  (search.frames.map fun frame => frame.2.length + 1).foldr (· + ·) 0

@[simp]
theorem unmet_lower (search : ComponentSearch) (node bound : Nat) :
    (search.lower node bound).unmet = search.unmet := rfl

@[simp]
theorem pending_lower (search : ComponentSearch) (node bound : Nat) :
    (search.lower node bound).pending = search.pending := rfl

@[simp]
theorem unmet_leave (search : ComponentSearch) (node : Nat) :
    (search.leave node).unmet = search.unmet := by
  unfold leave propagate
  split <;> dsimp only <;> split <;> rfl

@[simp]
theorem pending_leave (search : ComponentSearch) (node : Nat) :
    (search.leave node).pending = search.pending := by
  unfold leave propagate
  split <;> dsimp only <;> split <;> rfl

/-- Meeting a node leaves fewer nodes to meet. -/
theorem unmet_enter_lt {graph : Digraph ε} {search : ComponentSearch} {node : Nat}
    (unknown : search.indices[node]? = some none) :
    (search.enter graph node).unmet < search.unmet := by
  obtain ⟨bound, found⟩ := Array.getElem?_eq_some_iff.mp unknown
  have present : 0 < search.indices.count none :=
    Array.count_pos_iff.mpr (found ▸ Array.getElem_mem bound)
  have same : ((none : Option Nat) == none) = true := rfl
  have other : (some search.met == none) = false := rfl
  simp only [unmet, enter, Array.setIfInBounds_def, bound, dif_pos, Array.count_set, found, same,
    other, if_true, Bool.false_eq_true, if_false]
  omega

/-- Every step leaves fewer nodes to meet, or as many and less to do in the frames. -/
theorem step_decreases (graph : Digraph ε) {search : ComponentSearch} (busy : search.frames ≠ []) :
    (search.step graph).unmet < search.unmet ∨
      (search.step graph).unmet = search.unmet ∧ (search.step graph).pending < search.pending := by
  unfold step
  split
  · contradiction
  · rename_i frames
    right
    rw [unmet_leave, pending_leave]
    simp [pending, frames, unmet]
  · rename_i frames
    unfold follow
    dsimp only
    split
    · rename_i unknown
      exact Or.inl (unmet_enter_lt unknown)
    · split <;> exact Or.inr (by simp [pending, frames, unmet, lower])
    · exact Or.inr (by simp [pending, frames, unmet])

/-- Take steps until no node is under exploration. -/
def run (graph : Digraph ε) (search : ComponentSearch) : ComponentSearch :=
  if _ : search.frames = [] then search else run graph (search.step graph)
termination_by (search.unmet, search.pending)
decreasing_by
  rename_i busy
  rcases step_decreases graph busy with fewer | ⟨same, less⟩
  · exact Prod.Lex.left _ _ fewer
  · rw [same]
    exact Prod.Lex.right _ less

/-- Search from a node unless it was met before. -/
def explore (graph : Digraph ε) (search : ComponentSearch) (root : Nat) : ComponentSearch :=
  if search.index? root = none then (search.enter graph root).run graph else search

end ComponentSearch

/-- The search from every node in turn. -/
def componentSearch (graph : Digraph ε) : ComponentSearch :=
  graph.nodes.foldl (ComponentSearch.explore graph) (.start graph.nodeCount)

/-- The strongly connected components, each after those that it leads to. -/
def stronglyConnected (graph : Digraph ε) : List (List Nat) :=
  graph.componentSearch.complete.reverse

/-- The strongly connected components with the nodes of each in increasing order. -/
def components (graph : Digraph ε) : List (List Nat) :=
  graph.stronglyConnected.map fun component => component.mergeSort

/-- The component that holds a node, given all components. -/
def componentOf (components : List (List Nat)) (node : Nat) : Nat :=
  components.findIdx (·.contains node)

/-- The pairs of different components that some edge joins, each once. -/
def condensation (graph : Digraph ε) (components : List (List Nat)) : List (Nat × Nat) :=
  let edges := graph.nodes.flatMap fun node =>
    (graph.successors node).map fun successor =>
      (componentOf components node, componentOf components successor)
  (edges.filter fun edge => edge.1 ≠ edge.2).eraseDups

end Digraph
end NwScript
