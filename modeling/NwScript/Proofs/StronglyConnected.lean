import NwScript.Proofs.ComponentSearch

/-!
# Strongly connected components in order

A search that has left every node has completed all components.  Each of them holds the nodes that
reach each other, and it was completed after the others that its edges lead to.
-/

namespace NwScript
namespace Digraph

variable {ε : Type} {graph : Digraph ε}

namespace ComponentSearch

variable {search : ComponentSearch}

/-- A step keeps the invariant. -/
theorem Invariant.step (invariant : Invariant graph search) (proper : graph.IsProper) :
    Invariant graph (search.step graph) := by
  unfold ComponentSearch.step
  split
  · exact invariant
  · rename_i frames
    exact invariant.leave frames
  · rename_i frames
    exact invariant.follow proper frames

/-- A run keeps the invariant. -/
theorem Invariant.run (invariant : Invariant graph search) (proper : graph.IsProper) :
    Invariant graph (search.run graph) := by
  fun_induction ComponentSearch.run graph search with
  | case1 search idle => exact invariant
  | case2 search busy induction => exact induction (invariant.step proper)

theorem frames_run (graph : Digraph ε) (search : ComponentSearch) :
    (search.run graph).frames = [] := by
  fun_induction ComponentSearch.run graph search with
  | case1 search idle => exact idle
  | case2 search busy induction => exact induction

/-- A node that was met stays met. -/
theorem index?_step {node : Nat} (met : search.index? node ≠ none) :
    (search.step graph).index? node ≠ none := by
  unfold ComponentSearch.step
  split
  · exact met
  · unfold ComponentSearch.leave propagate
    split <;> dsimp only <;> split <;> exact met
  · unfold ComponentSearch.follow
    split
    · rename_i target _ _ _ _ unknown
      by_cases same : node = target
      · subst same
        exact absurd (congrArg Option.join unknown) met
      · rw [index?_enter_of_ne same]
        exact met
    · split <;> exact met
    · exact met

theorem index?_run {node : Nat} (met : search.index? node ≠ none) :
    (search.run graph).index? node ≠ none := by
  fun_induction ComponentSearch.run graph search with
  | case1 search idle => exact met
  | case2 search busy induction => exact induction (index?_step met)

theorem index?_explore {node root : Nat} (met : search.index? node ≠ none) :
    (search.explore graph root).index? node ≠ none := by
  unfold ComponentSearch.explore
  split
  · rename_i unknown
    have other : node ≠ root := fun same => met (same ▸ unknown)
    exact index?_run (by rw [index?_enter_of_ne other]; exact met)
  · exact met

/-- Between the searches from different nodes the invariant holds and no node is under exploration. -/
structure Resting (graph : Digraph ε) (search : ComponentSearch) : Prop
    extends Invariant graph search where
  /-- Nothing is under exploration. -/
  idle : search.frames = []

theorem Resting.stack_eq_nil (resting : Resting graph search) : search.stack = [] := by
  have layered := resting.layered
  rw [resting.idle, List.map_nil] at layered
  generalize search.stack = stack at layered
  cases layered
  rfl

/-- The search from one more node completes its component and all that it leads to. -/
theorem Resting.explore (resting : Resting graph search) (proper : graph.IsProper) {root : Nat}
    (inside : root < graph.nodeCount) :
    Resting graph (search.explore graph root) ∧
      (search.explore graph root).index? root ≠ none := by
  unfold ComponentSearch.explore
  split
  · rename_i unknown
    have entered : Invariant graph (search.enter graph root) := by
      refine resting.toConsistent.invariant_enter unknown inside ?_ ?_
      · simp [resting.idle]
      · simp [resting.stack_eq_nil]
    refine ⟨⟨entered.run proper, frames_run graph _⟩, index?_run ?_⟩
    rw [index?_enter_self (resting.indices_size ▸ inside)]
    exact Option.some_ne_none _
  · rename_i known
    exact ⟨resting, known⟩

theorem Resting.foldl_explore (resting : Resting graph search) (proper : graph.IsProper)
    {roots : List Nat} (inside : ∀ root ∈ roots, root < graph.nodeCount) :
    Resting graph (roots.foldl (ComponentSearch.explore graph) search) ∧
      ∀ node, node ∈ roots ∨ search.index? node ≠ none →
        (roots.foldl (ComponentSearch.explore graph) search).index? node ≠ none := by
  induction roots generalizing search with
  | nil => simpa using resting
  | cons root roots induction =>
      obtain ⟨explored, met⟩ := resting.explore proper (inside root List.mem_cons_self)
      obtain ⟨final, all⟩ := induction explored
        (fun other listed => inside other (List.mem_cons_of_mem _ listed))
      refine ⟨final, fun node early => all node ?_⟩
      rcases early with listed | known
      · rcases List.mem_cons.mp listed with rfl | later
        · exact .inr met
        · exact .inl later
      · exact .inr (index?_explore known)

end ComponentSearch

open ComponentSearch

theorem resting_componentSearch (proper : graph.IsProper) :
    Resting graph graph.componentSearch ∧
      ∀ node < graph.nodeCount, graph.componentSearch.index? node ≠ none := by
  have resting : Resting graph (.start graph.nodeCount) := ⟨invariant_start graph, rfl⟩
  have inside : ∀ root ∈ graph.nodes, root < graph.nodeCount := fun _ => List.mem_range.mp
  obtain ⟨final, met⟩ := resting.foldl_explore proper inside
  exact ⟨final, fun node inside => met node (.inl (List.mem_range.mpr inside))⟩

/-- The search completes every node of the graph once. -/
theorem flatten_complete_perm (proper : graph.IsProper) :
    graph.componentSearch.complete.flatten.Perm graph.nodes := by
  obtain ⟨final, met⟩ := resting_componentSearch proper
  have nodup := final.nodup
  rw [final.stack_eq_nil, List.nil_append] at nodup
  refine (List.perm_ext_iff_of_nodup nodup List.nodup_range).mpr fun node => ?_
  have known := final.known node
  simp only [final.stack_eq_nil, List.not_mem_nil, false_or] at known
  rw [← known, List.mem_range]
  refine ⟨fun found => ?_, met node⟩
  by_contra outside
  rw [← final.indices_size] at outside
  exact found (by simp [index?, Array.getElem?_eq_none (Nat.not_lt.mp outside)])

theorem isComponentOrder_stronglyConnected (proper : graph.IsProper) :
    graph.IsComponentOrder graph.stronglyConnected :=
  (resting_componentSearch proper).1.settled.isComponentOrder (flatten_complete_perm proper)

theorem isComponentOrder_components (proper : graph.IsProper) :
    graph.IsComponentOrder graph.components :=
  (isComponentOrder_stronglyConnected proper).map fun component =>
    List.mergeSort_perm component _

/-- A graph with one node has one component. -/
theorem components_of_single (proper : graph.IsProper) (single : graph.nodeCount = 1) :
    graph.components = [[0]] := by
  obtain ⟨nonempty, partition, _⟩ := isComponentOrder_components proper
  have flat : graph.components.flatten = [0] := by
    rw [nodes, single] at partition
    exact List.perm_singleton.mp partition
  generalize graph.components = components at nonempty flat
  match components with
  | [] => cases flat
  | [] :: _ => exact absurd rfl (nonempty [] List.mem_cons_self)
  | (node :: others) :: rest =>
      obtain ⟨rfl, none_left⟩ := List.cons.inj flat
      obtain ⟨rfl, empty⟩ := List.append_eq_nil_iff.mp none_left
      cases rest with
      | nil => rfl
      | cons component _ =>
          exact absurd (List.flatten_eq_nil_iff.mp empty component List.mem_cons_self)
            (nonempty component (List.mem_cons_of_mem _ List.mem_cons_self))

/-- The search finds the components in full and in order, as it completes them and with the nodes of
each sorted. -/
theorem components_inOrder (graph : Digraph ε) (proper : graph.IsProper) :
    graph.IsComponentOrder graph.stronglyConnected ∧ graph.IsComponentOrder graph.components :=
  ⟨isComponentOrder_stronglyConnected proper, isComponentOrder_components proper⟩

/-- Two nodes on a circle, of which one also leads to a third node with a loop. -/
theorem components_inOrder_circle :
    let graph : Digraph Unit :=
      { outgoing := #[[(1, ())], [(0, ()), (2, ()), (2, ())], [(2, ())]]
        incoming := #[[(1, ())], [(0, ())], [(1, ()), (1, ()), (2, ())]]
        edgeCount := 5 }
    graph.IsProper ∧
      graph.IsComponentOrder graph.stronglyConnected ∧ graph.IsComponentOrder graph.components := by
  intro graph
  have proper : graph.IsProper := by
    intro source target edge
    rcases source with _ | _ | _ | source <;>
      simp [graph, Edge, successors, outgoingEdges, nodeCount] at edge ⊢ <;> omega
  exact ⟨proper, components_inOrder graph proper⟩

end Digraph
end NwScript
