import Mathlib.Algebra.BigOperators.Intervals
import Mathlib.Data.List.Sort
import NwScript.Proofs.CallTargets

/-!
# Views of a call graph

A call graph answers who calls whom in four ways, from the edges that leave a subroutine, from those that
enter it, from the callees noted at the instructions, and from the number of edges.  Each call adds one
edge at the end of the list of its caller and is noted, so the lists hold the noted calls, each once and in
program order, and everything else follows from the lists.
-/

namespace NwScript

namespace Digraph

variable {ε : Type} {graph : Digraph ε}

/-- The nodes that a list holds are its distinct elements in order. -/
theorem filter_nodes_eq_mergeSort {listed : List Nat}
    (inside : ∀ node ∈ listed, node < graph.nodeCount) :
    graph.nodes.filter listed.contains = listed.dedup.mergeSort (· ≤ ·) := by
  have sorted : (graph.nodes.filter listed.contains).Pairwise (· < ·) :=
    List.pairwise_lt_range.filter _
  have same : (graph.nodes.filter listed.contains).Perm listed.dedup := by
    apply (List.perm_ext_iff_of_nodup (sorted.imp Nat.ne_of_lt) (List.nodup_dedup _)).mpr
    intro node
    rw [List.mem_filter, List.mem_dedup, List.contains_iff_mem, nodes, List.mem_range]
    exact ⟨fun both => both.2, fun held => ⟨inside node held, held⟩⟩
  exact List.Perm.eq_of_pairwise (fun _ _ _ _ => Nat.le_antisymm) (sorted.imp Nat.le_of_lt)
    (List.pairwise_mergeSort' (· ≤ ·) _) (same.trans (List.mergeSort_perm _ _).symm)

end Digraph

namespace CallGraph

open FlowTable (LiveCall)
open Finset (range sum_congr sum_add_distrib sum_ite_eq')

variable {program : Program} {table : FlowTable} {calls : CallGraph}
  {count command caller callee : Nat}

/-- The edges that leave each subroutine are those of its first instructions with a noted call, in
program order. -/
structure ListsCalls (program : Program) (count : Nat) (noted : Digraph Nat × Array (Option Nat)) :
    Prop where
  /-- The edges are in program order. -/
  increasing : ∀ caller, (noted.1.outgoingEdges caller).Pairwise fun first last => first.2 < last.2
  /-- Only the first instructions have edges. -/
  bounded : ∀ caller, ∀ edge ∈ noted.1.outgoingEdges caller, edge.2 < count
  /-- The edges of a subroutine are those of the calls noted at its instructions. -/
  listed : ∀ caller callee command, (callee, command) ∈ noted.1.outgoingEdges caller ↔
    program.owner command = caller ∧ noted.2[command]?.join = some callee
  /-- All edges are counted. -/
  counted : noted.1.edgeCount =
    ∑ caller ∈ range program.subroutineCount, (noted.1.outgoingEdges caller).length

theorem listsCalls_start (program : Program) : ListsCalls program 0
    (.discrete program.subroutineCount, Array.replicate program.commandCount none) where
  increasing := fun caller => by
    rw [Digraph.outgoingEdges_discrete]
    exact .nil
  bounded := fun caller edge listed => by
    rw [Digraph.outgoingEdges_discrete] at listed
    cases listed
  listed := fun caller callee command => by
    rw [Digraph.outgoingEdges_discrete, Array.getElem?_replicate]
    split <;> simp
  counted := by
    simp only [Digraph.outgoingEdges_discrete, List.length_nil, Finset.sum_const_zero]
    rfl

/-- The call of the next instruction comes behind those of its subroutine so far. -/
theorem ListsCalls.addCall {before after : Digraph Nat × Array (Option Nat)}
    (lists : ListsCalls program count before) (notes : Notes program table count before)
    (inside : count < program.commandCount)
    (added : CallGraph.addCall program table before count = .ok after) :
    ListsCalls program (count + 1) after := by
  rcases addCall_cases added with ⟨-, rfl⟩ | ⟨callee, graph, -, grown, rfl⟩
  · exact { lists with bounded := fun caller edge listed =>
      Nat.lt_succ_of_lt (lists.bounded caller edge listed) }
  have edges := Digraph.outgoingEdges_addEdge grown
  constructor
  · intro caller
    rw [edges, List.pairwise_append]
    refine ⟨lists.increasing caller, by split <;> simp, fun edge old last new => ?_⟩
    split at new
    · rw [List.mem_singleton.mp new]
      exact lists.bounded caller edge old
    · cases new
  · intro caller edge listed
    rw [edges, List.mem_append] at listed
    rcases listed with old | new
    · exact Nat.lt_succ_of_lt (lists.bounded caller edge old)
    · split at new
      · rw [List.mem_singleton.mp new]
        exact Nat.lt_succ_self count
      · cases new
  · intro caller target command
    rw [edges, List.mem_append, lists.listed]
    by_cases here : command = count
    · -- Nothing was noted at the instruction, so only the new edge has it for a label.
      subst here
      rw [notes.blank command (Nat.le_refl _)]
      simp only [Array.getElem?_setIfInBounds_self, notes.size, inside, if_true, Option.join_some]
      by_cases own : caller = program.owner command
      · simp [own, eq_comm]
      · simp [own, Ne.symm own]
    · rw [Array.getElem?_setIfInBounds_ne (Ne.symm here)]
      constructor
      · rintro (old | new)
        · exact old
        · split at new
          · simp [here] at new
          · cases new
      · exact .inl
  · have lengths : ∀ caller, (graph.outgoingEdges caller).length =
        (before.1.outgoingEdges caller).length +
          if caller = program.owner count then 1 else 0 := by
      intro caller
      rw [edges, List.length_append]
      split <;> rfl
    have owned : program.owner count ∈ range program.subroutineCount :=
      Finset.mem_range.mpr (Program.owner_lt inside)
    calc graph.edgeCount
        = before.1.edgeCount + 1 := Digraph.edgeCount_addEdge grown
      _ = ∑ caller ∈ range program.subroutineCount, (before.1.outgoingEdges caller).length +
            ∑ caller ∈ range program.subroutineCount,
              if caller = program.owner count then 1 else 0 := by
          rw [lists.counted, sum_ite_eq', if_pos owned]
      _ = ∑ caller ∈ range program.subroutineCount, (graph.outgoingEdges caller).length := by
          rw [← sum_add_distrib]
          exact sum_congr rfl fun caller _ => (lengths caller).symm

theorem listsCalls_of_build (built : build program table = .ok calls) :
    ListsCalls program program.commandCount (calls.graph, calls.targets) :=
  (build_induction built
    (fun count noted => Notes program table count noted ∧ ListsCalls program count noted)
    ⟨notes_start program table, listsCalls_start program⟩
    fun _ inside _ _ both added =>
      ⟨both.1.addCall inside added, both.2.addCall both.1 inside added⟩).1.2

section Views

variable (built : build program table = .ok calls)

include built

/-- The calls of a subroutine are those of its instructions that have a callee. -/
theorem mem_callSites_iff : (command, callee) ∈ calls.callSites caller ↔
    program.owner command = caller ∧ calls.target? command = some callee := by
  rw [target?, ← (listsCalls_of_build built).listed caller callee command, callSites, List.mem_map]
  constructor
  · rintro ⟨⟨_, _⟩, listed, ⟨⟩⟩
    exact listed
  · exact fun listed => ⟨_, listed, rfl⟩

/-- The calls of a subroutine are listed in program order, each once. -/
theorem pairwise_callSites (caller : Nat) :
    (calls.callSites caller).Pairwise fun first last => first.1 < last.1 := by
  rw [callSites, List.pairwise_map]
  exact (listsCalls_of_build built).increasing caller

theorem edgeCount_eq_sum : calls.edgeCount =
    ∑ caller ∈ range program.subroutineCount, (calls.callSites caller).length := by
  simp only [callSites, List.length_map]
  exact (listsCalls_of_build built).counted

/-- The callees of a subroutine are those of its calls. -/
theorem mem_callees_iff_mem_callSites :
    callee ∈ calls.callees caller ↔ ∃ command, (command, callee) ∈ calls.callSites caller := by
  simp only [mem_callees_iff built, mem_callSites_iff built, target?_eq_some_iff built]
  rfl

theorem mem_callees_iff_mem_callers : callee ∈ calls.callees caller ↔ caller ∈ calls.callers callee := by
  rw [mem_callees_iff built, mem_callers_iff built]

end Views

section Agreement

/-- All that a call graph says about the calls of a program is the same. -/
structure HasViews (program : Program) (table : FlowTable) (calls : CallGraph) : Prop where
  /-- The instructions with a target are the live calls of it. -/
  targets : ∀ command callee, calls.target? command = some callee ↔
    LiveCall program table command callee
  /-- The calls of a subroutine are those of its instructions with a target. -/
  sites : ∀ caller command callee, (command, callee) ∈ calls.callSites caller ↔
    program.owner command = caller ∧ calls.target? command = some callee
  /-- They are listed in program order, each once. -/
  ordered : ∀ caller, (calls.callSites caller).Pairwise fun first last => first.1 < last.1
  /-- The callees of a subroutine are those of its calls. -/
  called : ∀ caller callee, callee ∈ calls.callees caller ↔
    ∃ command, (command, callee) ∈ calls.callSites caller
  /-- The callers of a subroutine are those that it is a callee of. -/
  converse : ∀ caller callee, callee ∈ calls.callees caller ↔ caller ∈ calls.callers callee
  /-- Callees increase. -/
  calleesIncrease : ∀ sub, (calls.callees sub).Pairwise (· < ·)
  /-- Callers increase. -/
  callersIncrease : ∀ sub, (calls.callers sub).Pairwise (· < ·)
  /-- Callees are the distinct ends of the edges that leave a subroutine, sorted. -/
  calleesSorted : ∀ sub,
    calls.callees sub = (calls.graph.successors sub).dedup.mergeSort (· ≤ ·)
  /-- Callers are the distinct beginnings of the edges that enter a subroutine, sorted. -/
  callersSorted : ∀ sub,
    calls.callers sub = (calls.graph.predecessors sub).dedup.mergeSort (· ≤ ·)
  /-- Every call is an edge. -/
  counted : calls.edgeCount =
    ∑ caller ∈ range program.subroutineCount, (calls.callSites caller).length

theorem hasViews_of_build (built : build program table = .ok calls) : calls.HasViews program table := by
  obtain ⟨-, proper, -⟩ := graph_of_build built
  have sided := isTwoSided_of_build built
  constructor
  case targets => exact fun _ _ => target?_eq_some_iff built
  case sites => exact fun _ _ _ => mem_callSites_iff built
  case ordered => exact pairwise_callSites built
  case called => exact fun _ _ => mem_callees_iff_mem_callSites built
  case converse => exact fun _ _ => mem_callees_iff_mem_callers built
  case calleesIncrease => exact fun _ => List.pairwise_lt_range.filter _
  case callersIncrease => exact fun _ => List.pairwise_lt_range.filter _
  case calleesSorted => exact fun sub => Digraph.filter_nodes_eq_mergeSort (proper sub)
  case callersSorted =>
    intro sub
    apply Digraph.filter_nodes_eq_mergeSort
    exact fun node entering => ((sided.agree node sub).mp entering).source_lt
  case counted => exact edgeCount_eq_sum built

/-- The call graph of a program whose jumps and liveness are known exists, and its views agree. -/
theorem views_agree (known : table.IsKnown program) :
    ∃ calls, build program table = .ok calls ∧ calls.HasViews program table := by
  obtain ⟨calls, built⟩ := build_eq_ok known
  exact ⟨calls, built, hasViews_of_build built⟩

end Agreement

/-- A subroutine that calls another one twice, once into its middle and once where nothing leads; the
other one calls itself. -/
def crowded : Program :=
  .ofNonempty
    [[⟨13, .jump .call 28⟩, ⟨19, .jump .call 22⟩, ⟨25, .jump .call 22⟩, ⟨31, .simple .ret .void⟩,
        ⟨33, .jump .call 8⟩, ⟨39, .simple .ret .void⟩],
      [⟨41, .jump .call 0⟩, ⟨47, .simple .ret .void⟩]] (by simp)

/-- What the passes find out about it. -/
def crowdedTable : FlowTable :=
  Liveness.markedTable crowded #[true, true, true, true, false, false, true, true]

/-- Of the five calls three are calls of subroutines. -/
theorem views_agree_crowded : Analysis.flowTable crowded = .ok crowdedTable ∧
    ∃ calls, build crowded crowdedTable = .ok calls ∧ calls.target? 2 = none ∧
      calls.target? 4 = none ∧ (0, 1) ∈ calls.callSites 0 ∧ (1, 1) ∈ calls.callSites 0 ∧
      1 ∈ calls.callees 1 ∧ 0 ∈ calls.callers 1 ∧
      calls.edgeCount = (calls.callSites 0).length + (calls.callSites 1).length := by
  have flow : Analysis.flowTable crowded = .ok crowdedTable := by decide +kernel
  obtain ⟨calls, built, views⟩ := views_agree (Analysis.isKnown_of_flowTable flow)
  have aside : ∀ command ∈ [2, 4], calls.target? command = none := by
    intro command among
    refine Option.eq_none_iff_forall_ne_some.mpr fun callee target => ?_
    have live := (views.targets command callee).mp target
    have dull : ∀ command ∈ [2, 4], ∀ callee < crowded.subroutineCount,
        crowdedTable.isDead command ≠ .ok false ∨
          crowdedTable.destination command ≠ .ok (some (crowded.entry callee)) := by decide
    rcases dull command among callee live.counted with dead | elsewhere
    · exact dead live.live
    · exact elsewhere live.enters
  have calling : ∀ command ∈ [0, 1, 6], calls.target? command = some 1 := by
    intro command among
    have real : ∀ command ∈ [0, 1, 6], command < crowded.commandCount ∧
        crowded.opcode command = .call ∧ crowdedTable.isDead command = .ok false ∧
          crowdedTable.destination command = .ok (some (crowded.entry 1)) := by decide
    obtain ⟨inside, calls, live, enters⟩ := real command among
    exact (views.targets command 1).mpr ⟨inside, calls, live, by decide, enters⟩
  have site : ∀ command ∈ [0, 1, 6],
      (command, 1) ∈ calls.callSites (crowded.owner command) :=
    fun command among => (views.sites _ command 1).mpr ⟨rfl, calling command among⟩
  refine ⟨flow, calls, built, aside 2 (by simp), aside 4 (by simp), site 0 (by simp), site 1 (by simp),
    (views.called 1 1).mpr ⟨6, site 6 (by simp)⟩,
    (views.converse 0 1).mp ((views.called 0 1).mpr ⟨0, site 0 (by simp)⟩), ?_⟩
  have two : crowded.subroutineCount = 2 := by decide
  rw [views.counted, two, Finset.sum_range_succ, Finset.sum_range_one]

end CallGraph
end NwScript
