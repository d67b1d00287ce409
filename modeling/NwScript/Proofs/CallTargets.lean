import NwScript.Proofs.ExplorationOrder

/-!
# Call targets

Building a call graph visits every instruction once.  It notes at each of them the subroutine that the
instruction calls and adds no edge without a call, so the edges of the graph are those of the noted calls.
These are the live calls whose destination is the first instruction of a subroutine.
-/

namespace NwScript

/-- A reachable call that leads to the first instruction of a subroutine. -/
structure FlowTable.LiveCall (program : Program) (table : FlowTable) (command callee : Nat) : Prop where
  /-- It is an instruction of the program. -/
  inside : command < program.commandCount
  /-- It is a call. -/
  calls : program.opcode command = .call
  /-- It is reachable. -/
  live : table.isDead command = .ok false
  /-- The callee is a subroutine of the program. -/
  counted : callee < program.subroutineCount
  /-- It leads to where the callee begins. -/
  enters : table.destination command = .ok (some (program.entry callee))

/-- A subroutine holds a live call of another one, or of itself. -/
def FlowTable.Calls (program : Program) (table : FlowTable) (caller callee : Nat) : Prop :=
  ∃ command, program.owner command = caller ∧ LiveCall program table command callee

namespace Digraph

variable {ε : Type} {graph larger : Digraph ε} {source target : Nat} {label : ε}

/-- The edges that enter a node are those that leave some node for it. -/
structure IsTwoSided (graph : Digraph ε) : Prop where
  /-- There is as much room for the ones as for the others. -/
  size : graph.incoming.size = graph.outgoing.size
  /-- Both sides know the same edges. -/
  agree : ∀ source target, source ∈ graph.predecessors target ↔ graph.Edge source target

theorem isTwoSided_discrete (count : Nat) : (discrete count : Digraph ε).IsTwoSided where
  size := by simp [discrete]
  agree := fun source target => by
    rw [predecessors, incomingEdges_discrete]
    exact iff_of_false List.not_mem_nil (not_edge_discrete count)

theorem IsTwoSided.addEdge (sided : graph.IsTwoSided)
    (added : graph.addEdge source target label = .ok larger) : larger.IsTwoSided := by
  constructor
  · obtain ⟨-, -, rfl⟩ := addEdge_eq_ok added
    simpa using sided.size
  · intro first last
    rw [edge_addEdge_iff added, ← sided.agree, predecessors, predecessors,
      incomingEdges_addEdge sided.size added, List.map_append, List.mem_append]
    split
    · rename_i same
      simp [same]
    · rename_i apart
      simp [apart]

end Digraph

namespace CallGraph

open FlowTable (LiveCall Calls)

variable {program : Program} {table : FlowTable} {calls : CallGraph}
  {command count caller callee : Nat}

/-- The calls of the first instructions are noted, and no others. -/
structure Notes (program : Program) (table : FlowTable) (count : Nat)
    (noted : Digraph Nat × Array (Option Nat)) : Prop where
  /-- There is room for every instruction. -/
  size : noted.2.size = program.commandCount
  /-- The calls of the first instructions are known. -/
  known : ∀ command < count, callee? program table command = .ok noted.2[command]?.join
  /-- Nothing is noted for the others. -/
  blank : ∀ command, count ≤ command → noted.2[command]?.join = none
  /-- Every edge is that of a noted call. -/
  edges : ∀ source target, noted.1.Edge source target →
    ∃ command, program.owner command = source ∧ noted.2[command]?.join = some target

theorem notes_start (program : Program) (table : FlowTable) : Notes program table 0
    (.discrete program.subroutineCount, Array.replicate program.commandCount none) where
  size := Array.size_replicate
  known := fun _ absent => absurd absent (Nat.not_lt_zero _)
  blank := fun command _ => by
    rw [Array.getElem?_replicate]
    split <;> rfl
  edges := fun _ _ edge => absurd edge (Digraph.not_edge_discrete _)

theorem Notes.addCall {before after : Digraph Nat × Array (Option Nat)}
    (notes : Notes program table count before) (inside : count < program.commandCount)
    (added : addCall program table before count = .ok after) :
    Notes program table (count + 1) after := by
  rcases addCall_cases added with ⟨called, rfl⟩ | ⟨callee, graph, called, grown, rfl⟩
  · refine ⟨notes.size, fun command below => ?_,
      fun command above => notes.blank command (by omega), notes.edges⟩
    rcases Nat.lt_succ_iff_lt_or_eq.mp below with earlier | rfl
    · exact notes.known command earlier
    · rw [called, notes.blank command (Nat.le_refl _)]
  · have here : (before.2.setIfInBounds count (some callee))[count]?.join = some callee := by
      simp [notes.size, inside]
    have apart : ∀ command, command ≠ count →
        (before.2.setIfInBounds count (some callee))[command]?.join = before.2[command]?.join :=
      fun command other => by rw [Array.getElem?_setIfInBounds_ne other.symm]
    refine ⟨by simp [notes.size], fun command below => ?_, fun command above => ?_,
      fun source target edge => ?_⟩
    · rcases Nat.lt_succ_iff_lt_or_eq.mp below with earlier | rfl
      · rw [apart command (Nat.ne_of_lt earlier)]
        exact notes.known command earlier
      · rw [called, here]
    · rw [apart command (by omega)]
      exact notes.blank command (by omega)
    · rcases (Digraph.edge_addEdge_iff grown).mp edge with old | ⟨rfl, rfl⟩
      · obtain ⟨command, owned, listed⟩ := notes.edges source target old
        refine ⟨command, owned, ?_⟩
        rw [apart command, listed]
        rintro rfl
        rw [notes.blank command (Nat.le_refl _)] at listed
        cases listed
      · exact ⟨count, rfl, here⟩

/-- The call graph of a program notes all its calls. -/
theorem notes_of_build (built : build program table = .ok calls) :
    Notes program table program.commandCount (calls.graph, calls.targets) :=
  (build_induction built (Notes program table) (notes_start program table)
    fun _ inside _ _ notes added => notes.addCall inside added).1

/-- The target of an instruction is what it calls. -/
theorem callee?_of_build (built : build program table = .ok calls)
    (inside : command < program.commandCount) :
    callee? program table command = .ok (calls.target? command) :=
  (notes_of_build built).known command inside

/-- Nothing outside the program is noted. -/
theorem lt_of_target? (built : build program table = .ok calls)
    (noted : calls.target? command = some callee) : command < program.commandCount := by
  obtain ⟨within, -⟩ := Array.getElem?_eq_some_iff.mp (Option.join_eq_some_iff.mp noted)
  exact (notes_of_build built).size ▸ within

/-- An instruction of the program calls what it is a live call of. -/
theorem callee?_eq_some_iff (inside : command < program.commandCount) :
    callee? program table command = .ok (some callee) ↔ LiveCall program table command callee := by
  unfold callee?
  constructor
  · intro called
    split at called
    · rename_i calling
      cases dead : table.isDead command with
      | error fault =>
          rw [dead] at called
          cases called
      | ok unreachable =>
          cases unreachable with
          | true =>
              rw [dead] at called
              cases called
          | false =>
              cases leads : table.destination command with
              | error fault =>
                  simp only [dead, leads, bind, Except.bind, Bool.false_eq_true, if_false] at called
                  cases called
              | ok destination =>
                  simp only [dead, leads, bind, Except.bind, Bool.false_eq_true, if_false, pure,
                    Except.pure, Except.ok.injEq] at called
                  obtain ⟨target, rfl, begins⟩ := Option.bind_eq_some_iff.mp called
                  obtain ⟨counted, rfl⟩ := Program.subroutineAt?_eq_some_iff.mp begins
                  exact ⟨inside, calling, dead, counted, leads⟩
    · cases called
  · intro live
    have begins : program.subroutineAt? (program.entry callee) = some callee :=
      Program.subroutineAt?_eq_some_iff.mpr ⟨live.counted, rfl⟩
    rw [if_pos live.calls, live.live, live.enters]
    exact congrArg Except.ok begins

/-- The instructions with a target are the live calls of it. -/
theorem target?_eq_some_iff (built : build program table = .ok calls) :
    calls.target? command = some callee ↔ LiveCall program table command callee := by
  constructor
  · intro noted
    have inside := lt_of_target? built noted
    exact (callee?_eq_some_iff inside).mp (noted ▸ callee?_of_build built inside)
  · intro live
    have called := (callee?_eq_some_iff live.inside).mpr live
    exact Except.ok.inj ((callee?_of_build built live.inside).symm.trans called)

/-- The edges of a call graph are those of the live calls. -/
theorem edge_iff (built : build program table = .ok calls) :
    calls.graph.Edge caller callee ↔ Calls program table caller callee := by
  constructor
  · intro edge
    obtain ⟨command, owned, noted⟩ := (notes_of_build built).edges caller callee edge
    exact ⟨command, owned, (target?_eq_some_iff built).mp noted⟩
  · rintro ⟨command, rfl, live⟩
    exact edge_of_target? built ((target?_eq_some_iff built).mpr live)

theorem isTwoSided_of_build (built : build program table = .ok calls) : calls.graph.IsTwoSided :=
  (build_induction built (fun _ pair => pair.1.IsTwoSided) (Digraph.isTwoSided_discrete _) (by
    intro count _ before after sided added
    rcases addCall_cases added with ⟨-, rfl⟩ | ⟨callee, graph, -, grown, rfl⟩
    · exact sided
    · exact sided.addEdge grown)).1

/-- The callers of a subroutine are those that hold a live call of it. -/
theorem mem_callers_iff (built : build program table = .ok calls) :
    caller ∈ calls.callers callee ↔ Calls program table caller callee := by
  rw [← edge_iff built]
  simp only [callers, List.mem_filter, List.contains_iff_mem,
    (isTwoSided_of_build built).agree, Digraph.nodes, List.mem_range]
  exact ⟨fun listed => listed.2, fun edge => ⟨edge.source_lt, edge⟩⟩

/-- The callees of a subroutine are those that it holds a live call of. -/
theorem mem_callees_iff (built : build program table = .ok calls) :
    callee ∈ calls.callees caller ↔ Calls program table caller callee := by
  obtain ⟨-, proper, -⟩ := graph_of_build built
  rw [← edge_iff built]
  simp only [callees, List.mem_filter, List.contains_iff_mem, Digraph.nodes, List.mem_range]
  exact ⟨fun listed => listed.2, fun edge => ⟨proper _ _ edge, edge⟩⟩

end CallGraph
end NwScript
