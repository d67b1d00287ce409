import NwScript.Proofs.AnalysisTotal
import NwScript.Proofs.CallTargets
import NwScript.Proofs.PrototypeChanges

/-!
# Recursion

A subroutine lies on a circle of calls if and only if it calls itself or shares its component with another
one.  Inference marks the subroutines for which this holds before it starts, and no change that it makes to
a prototype touches the mark.
-/

namespace NwScript

open FlowTable (Calls)
open Relation (TransGen)

namespace Digraph

variable {ε : Type} {graph : Digraph ε} {components : List (List Nat)} {node other : Nat}

theorem hasEdge_iff : graph.hasEdge node other = true ↔ graph.Edge node other :=
  List.contains_iff_mem

/-- A path between different nodes follows some edge. -/
theorem Reaches.transGen (path : graph.Reaches node other) (apart : node ≠ other) :
    TransGen graph.Edge node other :=
  (Relation.reflTransGen_iff_eq_or_transGen.mp path).resolve_left apart.symm

/-- A node that shares its component with another one lies on a circle. -/
theorem IsComponentOrder.transGen_of_shared (order : graph.IsComponentOrder components)
    {component : List Nat} (listed : component ∈ components) (several : 1 < component.length)
    (member : node ∈ component) : TransGen graph.Edge node node := by
  have unique : components.flatten.Nodup := order.partition.nodup_iff.mpr List.nodup_range
  have nodup : component.Nodup := (List.nodup_flatten.mp unique).1 component listed
  have crowded : component ≠ [node] := by
    rintro rfl
    exact Nat.lt_irrefl 1 several
  obtain ⟨other, held, apart⟩ := ((nodup.ne_singleton_iff node).mp crowded).resolve_left
    (List.ne_nil_of_mem member)
  have inside : ∀ {node}, node ∈ component → node < graph.nodeCount := fun held =>
    List.mem_range.mp (order.partition.mem_iff.mp (List.mem_flatten.mpr ⟨component, listed, held⟩))
  obtain ⟨forth, back⟩ := (order.connected node (inside member) other (inside held)).mp
    ⟨component, listed, member, held⟩
  exact (forth.transGen apart.symm).trans (back.transGen apart)

/-- Nodes on a circle have an edge to themselves or share their component. -/
theorem IsComponentOrder.transGen_iff (order : graph.IsComponentOrder components)
    (proper : graph.IsProper) :
    TransGen graph.Edge node node ↔ graph.Edge node node ∨
      ∃ component ∈ components, 1 < component.length ∧ node ∈ component := by
  constructor
  · intro circle
    obtain ⟨next, edge, path⟩ := Relation.TransGen.head'_iff.mp circle
    by_cases loop : next = node
    · exact .inl (loop ▸ edge)
    · obtain ⟨component, listed, member, held⟩ :=
        (order.connected node edge.source_lt next (proper node next edge)).mpr
          ⟨Relation.ReflTransGen.single edge, path⟩
      refine .inr ⟨component, listed, ?_, member⟩
      rcases component with _ | ⟨first, _ | ⟨second, rest⟩⟩
      · cases member
      · rw [List.mem_singleton] at member held
        exact absurd (held.trans member.symm) loop
      · simp
  · rintro (loop | ⟨component, listed, several, member⟩)
    · exact .single loop
    · exact order.transGen_of_shared listed several member

end Digraph

namespace CallGraph

variable {program : Program} {table : FlowTable} {calls : CallGraph}

/-- Recursive are the subroutines on a circle of live calls. -/
theorem isRecursive_iff (built : build program table = .ok calls) (sub : Nat) :
    calls.isRecursive sub = true ↔ TransGen (Calls program table) sub sub := by
  obtain ⟨-, proper, components⟩ := graph_of_build built
  have order := components ▸ Digraph.isComponentOrder_components proper
  have same : calls.graph.Edge = Calls program table :=
    funext fun caller => funext fun callee => propext (edge_iff built)
  rw [← same, order.transGen_iff proper]
  simp only [isRecursive, Bool.or_eq_true, Digraph.hasEdge_iff, List.any_eq_true, Bool.and_eq_true,
    decide_eq_true_eq, List.contains_iff_mem]

/-- Only subroutines of the program call. -/
theorem lt_of_transGen {sub callee : Nat} (path : TransGen (Calls program table) sub callee) :
    sub < program.subroutineCount := by
  obtain ⟨callee, ⟨command, rfl, live⟩, -⟩ := Relation.TransGen.head'_iff.mp path
  exact Program.owner_lt live.inside

/-- Some subroutine is recursive if and only if the calls have a circle. -/
theorem hasRecursion_iff (built : build program table = .ok calls) :
    calls.hasRecursion = true ↔ ∃ sub, TransGen (Calls program table) sub sub := by
  obtain ⟨sized, -, -⟩ := graph_of_build built
  simp only [hasRecursion, List.any_eq_true, isRecursive_iff built, Digraph.nodes, sized,
    List.mem_range]
  constructor
  · rintro ⟨sub, -, circle⟩
    exact ⟨sub, circle⟩
  · rintro ⟨sub, circle⟩
    exact ⟨sub, lt_of_transGen circle, circle⟩

end CallGraph

namespace Prototype

/-- No change touches the mark of a subroutine that can call itself. -/
theorem Change.recursive_eq {before after : Prototype} (change : Change before after) :
    after.flags.recursive = before.flags.recursive := by
  cases change with
  | status | decisions | install | fallback => rfl
  | learn lesson =>
      rcases before.learn_cases lesson with same | ⟨slots, returnType, same⟩
      · rw [same]
      · rw [same]
        rfl

end Prototype

namespace InferenceInput

variable {input : InferenceInput} {layout : Layout} {table : FlowTable} {sub : Nat}

theorem proto_initialState (inside : sub < input.program.subroutineCount) :
    (input.initialState layout table).proto sub = input.initialProto layout sub := by
  have listed : (input.initialState layout table).protos[sub]? =
      some (input.initialProto layout sub) := by
    simp [initialState, Program.subroutines, inside]
  rw [InferenceState.proto, Array.getD_eq_getD_getElem?, listed, Option.getD_some]

/-- Inference leaves the mark as it was set at its start. -/
theorem recursive_of_reaches {after : InferenceState} (inside : sub < input.program.subroutineCount)
    (reaches : input.Reaches (input.initialState layout table) after) :
    (after.proto sub).flags.recursive = input.calls.isRecursive sub := by
  refine (reaches.evolves sub).keeps
    (fun proto => proto.flags.recursive = input.calls.isRecursive sub)
    (fun change marked => change.recursive_eq.trans marked) ?_
  rw [proto_initialState inside]
  rfl

end InferenceInput

namespace Analysis

/-- Recursion is marked exactly.  A call graph finds the subroutines from which live calls lead back to
them, it finds some if and only if the calls have a circle, and after inference the marks of the prototypes
say the same. -/
theorem recursion_marked_exactly {program : Program} {table : FlowTable}
    (flow : flowTable program = .ok table) :
    ∃ calls, CallGraph.build program table = .ok calls ∧
      (∀ sub, calls.isRecursive sub = true ↔ TransGen (Calls program table) sub sub) ∧
      (calls.hasRecursion = true ↔ ∃ sub, TransGen (Calls program table) sub sub) ∧
      ∀ catalog settings layout, let input := inferenceInput program calls catalog settings
        ∃ inference after, (input.infer layout).run (input.initialState layout table) =
            .ok (inference, after) ∧
          inference.protos.size = program.subroutineCount ∧
          ∀ (sub : Nat) (proto : Prototype), inference.protos[sub]? = some proto →
            (proto.flags.recursive = true ↔ TransGen (Calls program table) sub sub) := by
  have known := isKnown_of_flowTable flow
  obtain ⟨calls, built⟩ := CallGraph.build_eq_ok known
  refine ⟨calls, built, CallGraph.isRecursive_iff built, CallGraph.hasRecursion_iff built,
    fun catalog settings layout => ?_⟩
  intro input
  obtain ⟨inference, after, ran, -, size, -⟩ :=
    InferenceInput.infer_eq_ok known (input.keeps_true table) layout
      (sound_initialState layout (fun _ => trivial) trivial)
  refine ⟨inference, after, ran, size, fun sub proto found => ?_⟩
  obtain ⟨reaches, same⟩ := InferenceInput.infer_reaches layout _ _ ran
  have inside : sub < program.subroutineCount := by
    obtain ⟨bound, -⟩ := Array.getElem?_eq_some_iff.mp found
    exact size ▸ bound
  have mark := InferenceInput.recursive_of_reaches inside reaches
  rw [InferenceState.proto, ← same, Array.getD_eq_getD_getElem?, found, Option.getD_some] at mark
  rw [mark]
  exact CallGraph.isRecursive_iff built sub

/-- Two subroutines that call each other, and one that calls the first of them. -/
def alternating : Program :=
  .ofNonempty
    [[⟨13, .jump .call 8⟩, ⟨19, .simple .ret .void⟩], [⟨21, .jump .call 8⟩, ⟨27, .simple .ret .void⟩],
      [⟨29, .jump .call (-8)⟩, ⟨35, .simple .ret .void⟩]] (by simp)

/-- Everything in it is reachable. -/
def alternatingTable : FlowTable :=
  Liveness.markedTable alternating (Array.replicate 6 true)

theorem recursion_marked_exactly_alternating :
    flowTable alternating = .ok alternatingTable ∧
    ∃ calls, CallGraph.build alternating alternatingTable = .ok calls ∧
      calls.isRecursive 0 = false ∧ calls.isRecursive 1 = true ∧ calls.hasRecursion = true ∧
      ∃ inference after, ((inferenceInput alternating calls .empty {}).infer ⟨0, none, none, none, 0⟩).run
          ((inferenceInput alternating calls .empty {}).initialState ⟨0, none, none, none, 0⟩
            alternatingTable) = .ok (inference, after) ∧
        ∃ proto, inference.protos[1]? = some proto ∧ proto.flags.recursive = true := by
  have flow : flowTable alternating = .ok alternatingTable := by decide +kernel
  obtain ⟨calls, built, each, any, inferred⟩ := recursion_marked_exactly flow
  have forth : Calls alternating alternatingTable 1 2 :=
    ⟨2, rfl, by decide, rfl, by decide, by decide, by decide⟩
  have back : Calls alternating alternatingTable 2 1 :=
    ⟨4, rfl, by decide, rfl, by decide, by decide, by decide⟩
  have circle : TransGen (Calls alternating alternatingTable) 1 1 := .tail (.single forth) back
  have uncalled : ¬TransGen (Calls alternating alternatingTable) 0 0 := by
    intro circle
    obtain ⟨_, -, command, -, live⟩ := Relation.TransGen.tail'_iff.mp circle
    have apart : ∀ command < 6, alternatingTable.destination command ≠ .ok (some 0) := by decide
    exact apart command live.inside live.enters
  obtain ⟨inference, after, ran, size, marks⟩ := inferred .empty {} ⟨0, none, none, none, 0⟩
  have counted : 1 < inference.protos.size := by
    rw [size]
    decide
  have found := Array.getElem?_eq_getElem counted
  refine ⟨flow, calls, built, ?_, (each 1).mpr circle, any.mpr ⟨1, circle⟩, inference, after, ran,
    _, found, (marks 1 _ found).mpr circle⟩
  exact Bool.eq_false_iff.mpr fun recursive => uncalled ((each 0).mp recursive)

end Analysis
end NwScript
