import NwScript.Proofs.InferenceTotal

/-!
# Analysis never fails on resolved programs

Once positions increase and every jump lands, the call graph, the layout and the inference only read
rows that are known, so the analysis of a program with a subroutine succeeds.
-/

namespace NwScript

variable {program : Program} {table : FlowTable}

/-- A subroutine begins at its first instruction and nowhere else. -/
theorem Program.subroutineAt?_eq_some_iff {command sub : Nat} :
    program.subroutineAt? command = some sub ↔
      sub < program.subroutineCount ∧ program.entry sub = command := by
  unfold subroutineAt?
  constructor
  · intro found
    split at found
    · rename_i here
      cases found
      exact ⟨owner_lt here.1, here.2⟩
    · cases found
  · rintro ⟨counted, rfl⟩
    have owned := owner_entry counted
    rw [if_pos ⟨entry_lt counted, by rw [owned]⟩, owned]

namespace CallGraph

/-- Only instructions of the program are looked at, and callees are subroutines. -/
theorem addCall_eq_ok (known : table.IsKnown program) {command : Nat}
    (inside : command < program.commandCount) {calls : Digraph Nat × Array (Option Nat)}
    (sized : calls.1.nodeCount = program.subroutineCount) :
    ∃ next, addCall program table calls command = .ok next ∧
      next.1.nodeCount = program.subroutineCount := by
  have asked : ∃ callee, callee? program table command = .ok callee ∧
      ∀ sub, callee = some sub → sub < program.subroutineCount := by
    obtain ⟨dead, marked⟩ := known.isDead_eq inside
    obtain ⟨destination, found, _⟩ := known.destination_eq inside
    unfold callee?
    split
    · rw [marked]
      cases dead with
      | true => exact ⟨_, rfl, by rintro _ ⟨⟩⟩
      | false =>
          rw [found]
          refine ⟨_, rfl, fun sub begins => ?_⟩
          obtain ⟨target, _, here⟩ := Option.bind_eq_some_iff.mp begins
          exact (Program.subroutineAt?_eq_some_iff.mp here).1
    · exact ⟨_, rfl, by rintro _ ⟨⟩⟩
  obtain ⟨callee, called, bound⟩ := asked
  unfold addCall
  rw [called]
  cases callee with
  | none => exact ⟨_, rfl, sized⟩
  | some sub =>
      have caller : ¬calls.1.nodeCount ≤ program.owner command := by
        have owned := Program.owner_lt inside
        omega
      have callee : ¬calls.1.nodeCount ≤ sub := by
        have counted := bound sub rfl
        omega
      simp only [bind, Except.bind, Digraph.addEdge, if_neg caller, if_neg callee]
      refine ⟨_, rfl, ?_⟩
      rw [← sized]
      simp [Digraph.nodeCount]

/-- An instruction without call changes nothing, and a call adds its edge and is noted. -/
theorem addCall_cases {before after : Digraph Nat × Array (Option Nat)} {command : Nat}
    (added : addCall program table before command = .ok after) :
    (callee? program table command = .ok none ∧ after = before) ∨
      ∃ callee graph, callee? program table command = .ok (some callee) ∧
        before.1.addEdge (program.owner command) callee command = .ok graph ∧
        after = (graph, before.2.setIfInBounds command (some callee)) := by
  unfold addCall at added
  cases called : callee? program table command with
  | error fault =>
      rw [called] at added
      cases added
  | ok callee =>
      rw [called] at added
      cases callee with
      | none =>
          cases added
          exact .inl ⟨rfl, rfl⟩
      | some callee =>
          cases grown : before.1.addEdge (program.owner command) callee command with
          | error fault =>
              simp only [bind, Except.bind, grown] at added
              cases added
          | ok graph =>
              simp only [bind, Except.bind, grown] at added
              cases added
              exact .inr ⟨callee, graph, rfl, grown, rfl⟩

/-- What holds before the first instruction and is kept at each one holds of the call graph. -/
theorem build_induction {calls : CallGraph} (built : build program table = .ok calls)
    (holds : Nat → Digraph Nat × Array (Option Nat) → Prop)
    (start : holds 0
      (.discrete program.subroutineCount, Array.replicate program.commandCount none))
    (each : ∀ count < program.commandCount, ∀ before after, holds count before →
      addCall program table before count = .ok after → holds (count + 1) after) :
    holds program.commandCount (calls.graph, calls.targets) ∧
      calls.components = calls.graph.components := by
  have folded : ∀ count ≤ program.commandCount, ∀ pair,
      (List.range count).foldlM (addCall program table)
        (.discrete program.subroutineCount, Array.replicate program.commandCount none) = .ok pair →
      holds count pair := by
    intro count
    induction count with
    | zero =>
        intro _ pair done
        cases done
        exact start
    | succ count induction =>
        intro inside pair done
        rw [List.range_succ, List.foldlM_append] at done
        cases before : (List.range count).foldlM (addCall program table)
            (.discrete program.subroutineCount, Array.replicate program.commandCount none) with
        | error fault =>
            rw [before] at done
            cases done
        | ok earlier =>
            rw [before] at done
            change addCall program table earlier count >>= pure = _ at done
            rw [bind_pure] at done
            exact each count inside earlier pair (induction (Nat.le_of_lt inside) earlier before) done
  unfold build at built
  dsimp only at built
  cases done : program.commandNumbers.foldlM (addCall program table)
      (.discrete program.subroutineCount, Array.replicate program.commandCount none) with
  | error fault =>
      rw [done] at built
      cases built
  | ok pair =>
      rw [done] at built
      cases built
      exact ⟨folded _ (Nat.le_refl _) pair done, rfl⟩

theorem build_eq_ok (known : table.IsKnown program) :
    ∃ calls, build program table = .ok calls := by
  have added : ∀ command ∈ program.commandNumbers, ∀ calls : Digraph Nat × Array (Option Nat),
      calls.1.nodeCount = program.subroutineCount → ∃ next,
        addCall program table calls command = .ok next ∧
          next.1.nodeCount = program.subroutineCount :=
    fun command listed calls sized => addCall_eq_ok known (List.mem_range.mp listed) sized
  obtain ⟨last, folded, _⟩ := foldlM_eq_ok added
    (.discrete program.subroutineCount, Array.replicate program.commandCount none)
    (Digraph.nodeCount_discrete _)
  unfold build
  dsimp only
  rw [folded]
  exact ⟨_, rfl⟩

end CallGraph

namespace Layout

theorem findSaveBase_eq_ok (known : table.IsKnown program) {commands : List Nat}
    (inside : ∀ command ∈ commands, command < program.commandCount) :
    ∃ found, findSaveBase program table commands = .ok found := by
  induction commands with
  | nil => exact ⟨_, rfl⟩
  | cons command rest induction =>
      have others := induction fun other listed => inside other (List.mem_cons_of_mem _ listed)
      obtain ⟨dead, marked⟩ := known.isDead_eq (inside command List.mem_cons_self)
      unfold findSaveBase
      split
      · rw [marked]
        cases dead with
        | true => exact others
        | false => exact ⟨_, rfl⟩
      · exact others

theorem forwardedCall_eq_ok (known : table.IsKnown program) (calls : CallGraph)
    (found : Option Nat) {commands : List Nat}
    (inside : ∀ command ∈ commands, command < program.commandCount) :
    ∃ callee, forwardedCall program table calls found commands = .ok callee := by
  induction commands generalizing found with
  | nil => exact ⟨_, rfl⟩
  | cons command rest induction =>
      have others := fun found : Option Nat => induction found fun other listed =>
        inside other (List.mem_cons_of_mem _ listed)
      obtain ⟨dead, marked⟩ := known.isDead_eq (inside command List.mem_cons_self)
      unfold forwardedCall
      rw [marked]
      cases dead with
      | true => exact others found
      | false =>
          simp only [bind, Except.bind, Bool.false_eq_true, if_false]
          split
          · split
            · exact others _
            · exact ⟨_, rfl⟩
          · exact others _
          · exact others _
          · exact others _
          · exact others _
          · exact ⟨_, rfl⟩

theorem callAfter_eq_ok (known : table.IsKnown program) (calls : CallGraph) (position : Nat)
    {commands : List Nat} (inside : ∀ command ∈ commands, command < program.commandCount) :
    ∃ callee, callAfter program table calls position commands = .ok callee := by
  induction commands with
  | nil => exact ⟨_, rfl⟩
  | cons command rest induction =>
      have others := induction fun other listed => inside other (List.mem_cons_of_mem _ listed)
      obtain ⟨dead, marked⟩ := known.isDead_eq (inside command List.mem_cons_self)
      unfold callAfter
      split
      · rw [marked]
        cases dead with
        | true => exact others
        | false => exact ⟨_, rfl⟩
      · exact others

theorem detect_eq_ok (known : table.IsKnown program) (calls : CallGraph)
    (nonempty : 0 < program.subroutineCount) :
    ∃ layout, detect program table calls = .ok layout := by
  have all : ∀ command ∈ program.commandNumbers, command < program.commandCount :=
    fun command listed => List.mem_range.mp listed
  have bodies : ∀ sub, ∀ command ∈ program.body sub, command < program.commandCount :=
    fun sub command listed => Program.lt_of_mem_body listed
  obtain ⟨saveBase, saved⟩ := findSaveBase_eq_ok known all
  obtain ⟨forwarded, called⟩ := forwardedCall_eq_ok known calls none (bodies 0)
  unfold detect
  rw [if_neg (by omega), saved, called]
  cases saveBase with
  | none => exact ⟨_, rfl⟩
  | some command =>
      obtain ⟨callee, after⟩ := callAfter_eq_ok known calls (program.position command)
        (bodies (program.owner command))
      simp only [bind, Except.bind, pure, Except.pure, after]
      exact ⟨_, rfl⟩

/-- Without a call and without a saved base pointer no subroutine has a special role. -/
theorem detect_plain (known : table.IsKnown program) (calls : CallGraph)
    (nonempty : 0 < program.subroutineCount)
    (plain : ∀ command < program.commandCount,
      program.opcode command ≠ .call ∧ program.opcode command ≠ .saveBase) :
    detect program table calls = .ok ⟨0, none, none, none, 0⟩ := by
  have saved : ∀ commands : List Nat, (∀ command ∈ commands, command < program.commandCount) →
      findSaveBase program table commands = .ok none := by
    intro commands inside
    induction commands with
    | nil => rfl
    | cons command rest induction =>
        rw [findSaveBase, if_neg (plain command (inside command List.mem_cons_self)).2]
        exact induction fun other listed => inside other (List.mem_cons_of_mem _ listed)
  have called : ∀ commands : List Nat, (∀ command ∈ commands, command < program.commandCount) →
      forwardedCall program table calls none commands = .ok none := by
    intro commands inside
    induction commands with
    | nil => rfl
    | cons command rest induction =>
        have others := induction fun other listed => inside other (List.mem_cons_of_mem _ listed)
        obtain ⟨dead, marked⟩ := known.isDead_eq (inside command List.mem_cons_self)
        have no_call := (plain command (inside command List.mem_cons_self)).1
        unfold forwardedCall
        rw [marked]
        cases dead with
        | true => exact others
        | false =>
            simp only [bind, Except.bind, Bool.false_eq_true, if_false]
            split
            · contradiction
            · exact others
            · exact others
            · exact others
            · exact others
            · rfl
  unfold detect
  rw [if_neg (by omega), Program.commandNumbers]
  dsimp only
  rw [saved _ fun command listed => List.mem_range.mp listed,
    called _ fun command listed => Program.lt_of_mem_body listed]
  rfl

end Layout

namespace Analysis

open Liveness (markedTable)

/-- The flow table of a program whose jumps land. -/
theorem flowTable_eq_ok (increasing : Positions.Increasing program) (land : Jumps.AllLand program) :
    ∃ live, Liveness.liveSet program (.resolved program) = .ok live ∧
      flowTable program = .ok (markedTable program live) := by
  obtain ⟨live, found, _, _, _⟩ := Liveness.liveSet_spec program
  refine ⟨live, found, ?_⟩
  have marked : (annotate program).runOn (.blank program.commandCount) =
      (.ok (), markedTable program live) := by
    unfold annotate
    rw [FlowPass.runOn_bind_ok (Positions.runOn_record.mpr ⟨increasing, rfl⟩)]
    rw [FlowPass.runOn_bind_ok ((Jumps.runOn_resolve increasing).mpr ⟨land, rfl⟩)]
    exact Liveness.runOn_mark found
  rw [flowTable, marked]

/-- Only a program with increasing positions whose jumps land has a flow table. -/
theorem resolved_of_flowTable (flow : flowTable program = .ok table) :
    Positions.Increasing program ∧ Jumps.AllLand program := by
  unfold flowTable at flow
  cases annotated : (annotate program).runOn (.blank program.commandCount) with
  | mk outcome last =>
      cases outcome with
      | error fault =>
          rw [annotated] at flow
          cases flow
      | ok value =>
          unfold annotate at annotated
          obtain ⟨_, placed, first, rest⟩ := FlowPass.runOn_bind_eq_ok.mp annotated
          obtain ⟨_, linked, second, _⟩ := FlowPass.runOn_bind_eq_ok.mp rest
          obtain ⟨increasing, rfl⟩ := Positions.runOn_record.mp first
          exact ⟨increasing, ((Jumps.runOn_resolve increasing).mp second).1⟩

theorem isKnown_of_flowTable (flow : flowTable program = .ok table) : table.IsKnown program := by
  obtain ⟨increasing, land⟩ := resolved_of_flowTable flow
  obtain ⟨live, _, marked⟩ := flowTable_eq_ok increasing land
  rw [Except.ok.inj (flow.symm.trans marked)]
  exact FlowTable.isKnown_markedTable program live

/-- The input of the inference of a program with certain calls. -/
abbrev inferenceInput (program : Program) (calls : CallGraph) (catalog : ActionCatalog)
    (settings : Settings) : InferenceInput :=
  { program, calls, catalog, settings }

theorem sound_initialState {input : InferenceInput} {fits : Prototype → Prop} (layout : Layout)
    (initial : ∀ sub, fits (input.initialProto layout sub)) (empty : fits {}) :
    input.Sound table fits (input.initialState layout table) := by
  refine ⟨.refl table, by simp [InferenceInput.initialState, Program.subroutines], fun sub => ?_⟩
  have protos : (input.initialState layout table).protos =
      ((List.range input.program.subroutineCount).map (input.initialProto layout)).toArray := rfl
  rw [InferenceState.proto, protos, Array.getD_eq_getD_getElem?]
  by_cases inside : sub < input.program.subroutineCount
  · simpa [inside] using initial sub
  · simpa [Nat.not_lt.mp inside] using empty

/-- The analysis of a program with a subroutine succeeds once its jumps land.  The table is the one
that liveness marking leaves but for stack heights, and prototypes keep what inference keeps. -/
theorem ofProgram_eq_ok (catalog : ActionCatalog) (settings : Settings)
    (nonempty : 0 < program.subroutineCount) (increasing : Positions.Increasing program)
    (land : Jumps.AllLand program) {live : Array Bool}
    (found : Liveness.liveSet program (.resolved program) = .ok live) {fits : Prototype → Prop}
    (initial : ∀ flags, fits { flags })
    (kept : ∀ calls, (inferenceInput program calls catalog settings).Keeps
      (markedTable program live) fits) :
    ∃ analysis, ofProgram program catalog settings = .ok analysis ∧
      (markedTable program live).SameFlow analysis.table ∧
      Layout.detect program (markedTable program live) analysis.calls = .ok analysis.layout ∧
      analysis.inference.protos.size = program.subroutineCount ∧
      ∀ sub, fits (analysis.inference.protos.getD sub {}) := by
  obtain ⟨other, again, flow⟩ := flowTable_eq_ok increasing land
  obtain rfl : live = other := Except.ok.inj (found.symm.trans again)
  have known := FlowTable.isKnown_markedTable program live
  obtain ⟨calls, built⟩ := CallGraph.build_eq_ok known
  obtain ⟨layout, detected⟩ := Layout.detect_eq_ok known calls nonempty
  obtain ⟨inference, state, inferred, sound, count, fitting⟩ :=
    InferenceInput.infer_eq_ok known (kept calls) layout
      (sound_initialState layout (fun _ => initial _) (initial {}))
  let analysis : Analysis :=
    { table := state.table, calls, layout, inference, warnings := state.warnings }
  refine ⟨analysis, ?_, sound.flow, detected, count, fitting⟩
  unfold ofProgram
  rw [flow]
  simp only [bind, Except.bind, built, detected]
  rw [inferred]
  rfl

end Analysis
end NwScript
