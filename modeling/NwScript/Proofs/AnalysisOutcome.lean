import NwScript.Proofs.AnalysisTotal
import NwScript.Proofs.InferenceProgress
import NwScript.Proofs.PathSearch
import NwScript.Proofs.StronglyConnected

/-!
# What an analysis gives

The analysis of a program succeeds exactly if the program is well placed.  Its components hold every
subroutine once, so inference leaves no subroutine without a prototype, and it gives up none twice.
-/

namespace NwScript

variable {program : Program} {table : FlowTable}

/-- There is a subroutine, positions increase, and every jump lands at an instruction. -/
structure Program.IsWellPlaced (program : Program) : Prop where
  /-- There is a subroutine. -/
  nonempty : 0 < program.subroutineCount
  /-- Positions increase over the whole program. -/
  increasing : ∀ first last, first < last → last < program.commandCount →
    program.position first < program.position last
  /-- The target of every jump is the position of an instruction. -/
  landing : ∀ command < program.commandCount, ∀ offset,
    (program.instruction command).jumpOffset? = some offset →
      ∃ target < program.commandCount,
        (program.position target : Int) = program.position command + offset

theorem Program.isWellPlaced_iff : program.IsWellPlaced ↔
    0 < program.subroutineCount ∧ Positions.Increasing program ∧ Jumps.AllLand program := by
  constructor
  · rintro ⟨nonempty, increasing, landing⟩
    have ordered : Positions.Increasing program :=
      fun command inside => increasing _ _ (Nat.lt_succ_self command) inside
    refine ⟨nonempty, ordered, fun command inside jumps => ?_⟩
    obtain ⟨target, aimed⟩ := Option.isSome_iff_exists.mp jumps
    obtain ⟨offset, jumping, rfl⟩ := Option.map_eq_some_iff.mp aimed
    obtain ⟨destination, bound, lands⟩ := landing command inside offset jumping
    have found := (Jumps.commandAt?_eq_some_iff ordered).mpr ⟨bound, lands⟩
    rw [Jumps.destination?, aimed, Option.bind_some, found]
    rfl
  · rintro ⟨nonempty, ordered, land⟩
    refine ⟨nonempty, fun first last less inside => ordered.lt_of_lt less inside,
      fun command inside offset jumping => ?_⟩
    have aimed : Jumps.target? program command =
        some ((program.position command : Int) + offset) := by
      rw [Jumps.target?, jumping, Option.map_some]
    obtain ⟨destination, found⟩ :=
      Option.isSome_iff_exists.mp (land command inside (Option.isSome_of_eq_some aimed))
    rw [Jumps.destination?, aimed, Option.bind_some] at found
    exact ⟨destination, (Jumps.commandAt?_eq_some_iff ordered).mp found⟩

namespace CallGraph

/-- The nodes of a call graph are the subroutines, and its components are those of the graph. -/
theorem graph_of_build {calls : CallGraph} (built : build program table = .ok calls) :
    calls.graph.nodeCount = program.subroutineCount ∧ calls.graph.IsProper ∧
      calls.components = calls.graph.components := by
  obtain ⟨⟨sized, proper⟩, components⟩ := build_induction built
    (fun _ pair => pair.1.nodeCount = program.subroutineCount ∧ pair.1.IsProper)
    ⟨Digraph.nodeCount_discrete _, Digraph.isProper_discrete _⟩ (by
      rintro count - before after ⟨sized, proper⟩ added
      rcases addCall_cases added with ⟨-, rfl⟩ | ⟨callee, graph, -, grown, rfl⟩
      · exact ⟨sized, proper⟩
      · exact ⟨(Digraph.nodeCount_addEdge grown).trans sized, proper.addEdge grown⟩)
  exact ⟨sized, proper, components⟩

/-- The components of a call graph hold every subroutine once. -/
theorem flatten_components_perm {calls : CallGraph} (built : build program table = .ok calls) :
    calls.components.flatten.Perm (List.range program.subroutineCount) := by
  obtain ⟨sized, proper, components⟩ := graph_of_build built
  have partition := (Digraph.isComponentOrder_components proper).partition
  rwa [Digraph.nodes, sized, ← components] at partition

end CallGraph

namespace Analysis

open TypingContext (recursing recursingWalks)

/-- Only a well placed program passes the first passes and has a layout. -/
theorem isWellPlaced_of_ofProgram {catalog : ActionCatalog} {settings : Settings}
    {analysis : Analysis} (done : ofProgram program catalog settings = .ok analysis) :
    program.IsWellPlaced := by
  rw [Program.isWellPlaced_iff]
  cases flow : flowTable program with
  | error fault =>
      rw [ofProgram, flow] at done
      cases done
  | ok table =>
      refine ⟨Nat.pos_of_ne_zero fun empty => ?_, resolved_of_flowTable flow⟩
      simp only [ofProgram, flow, bind, Except.bind] at done
      cases built : CallGraph.build program table with
      | error fault =>
          rw [built] at done
          cases done
      | ok calls =>
          rw [built] at done
          simp only [Layout.detect, if_pos empty] at done
          cases done

/-- What the passes gave that an analysis was made from. -/
theorem exists_of_ofProgram {catalog : ActionCatalog} {settings : Settings} {analysis : Analysis}
    (done : ofProgram program catalog settings = .ok analysis) :
    ∃ table after, flowTable program = .ok table ∧
      CallGraph.build program table = .ok analysis.calls ∧
      Layout.detect program table analysis.calls = .ok analysis.layout ∧
      ((inferenceInput program analysis.calls catalog settings).infer analysis.layout).run
          ((inferenceInput program analysis.calls catalog settings).initialState analysis.layout
            table) = .ok (analysis.inference, after) := by
  unfold ofProgram at done
  cases flow : flowTable program with
  | error fault =>
      rw [flow] at done
      cases done
  | ok table =>
      cases built : CallGraph.build program table with
      | error fault =>
          simp only [flow, built, bind, Except.bind] at done
          cases done
      | ok calls =>
          cases detected : Layout.detect program table calls with
          | error fault =>
              simp only [flow, built, detected, bind, Except.bind] at done
              cases done
          | ok layout =>
              simp only [flow, built, detected, bind, Except.bind] at done
              cases inferred : ((inferenceInput program calls catalog settings).infer layout).run
                  ((inferenceInput program calls catalog settings).initialState layout table) with
              | error fault =>
                  rw [inferred] at done
                  cases done
              | ok pair =>
                  rw [inferred] at done
                  cases done
                  exact ⟨table, pair.2, rfl, built, detected, inferred⟩

/-- Before inference nothing is settled and nothing was given up. -/
theorem settling_initialState (input : InferenceInput) (layout : Layout) (table : FlowTable) :
    input.Settling [] (input.initialState layout table) where
  count := by simp [InferenceInput.initialState, Program.subroutines]
  done := fun _ listed => absurd listed List.not_mem_nil
  once := List.nodup_nil
  closed := fun _ listed => absurd listed List.not_mem_nil

/-- An analysis gives every subroutine a prototype and gives up none twice. -/
theorem settled_of_ofProgram {catalog : ActionCatalog} {settings : Settings} {analysis : Analysis}
    (done : ofProgram program catalog settings = .ok analysis) :
    analysis.inference.protos.size = program.subroutineCount ∧
      (∀ proto ∈ analysis.inference.protos, proto.status = .done) ∧
      (analysis.inference.failures.map (·.1)).Nodup := by
  obtain ⟨nonempty, increasing, land⟩ :=
    Program.isWellPlaced_iff.mp (isWellPlaced_of_ofProgram done)
  obtain ⟨live, _, flow⟩ := flowTable_eq_ok increasing land
  have known := FlowTable.isKnown_markedTable program live
  obtain ⟨calls, built⟩ := CallGraph.build_eq_ok known
  obtain ⟨layout, detected⟩ := Layout.detect_eq_ok known calls nonempty
  have perm := CallGraph.flatten_components_perm built
  simp only [ofProgram, flow, bind, Except.bind, built, detected] at done
  cases inferred : ((inferenceInput program calls catalog settings).infer layout).run
      ((inferenceInput program calls catalog settings).initialState layout
        (Liveness.markedTable program live)) with
  | error fault =>
      rw [inferred] at done
      cases done
  | ok pair =>
      rw [inferred] at done
      cases done
      obtain ⟨inference, state⟩ := pair
      obtain ⟨settled, protos, failures⟩ := InferenceInput.infer_leads layout
        (settling_initialState _ layout _)
        (fun sub listed => List.mem_range.mp (perm.mem_iff.mp listed)) _ _ inferred
      dsimp only
      rw [protos, failures]
      refine ⟨settled.count, fun proto listed => ?_, settled.once⟩
      obtain ⟨sub, inside, rfl⟩ := Array.mem_iff_getElem.mp listed
      have bound : sub < program.subroutineCount := settled.count ▸ inside
      have known := settled.done sub (perm.mem_iff.mpr (List.mem_range.mpr bound))
      rwa [InferenceState.proto, Array.getD_eq_getD_getElem?, Array.getElem?_eq_getElem inside,
        Option.getD_some] at known

/-- The search for the globals makes fewer walks than it may make. -/
theorem findGlobals_eq_globalTypes (context : TypingContext) (cap : Nat) {walks : Nat}
    (enough : Nat.pow 2 context.stepLimit ≤ walks) :
    context.findGlobals cap walks .empty = context.globalTypes cap := by
  have all := (context.walks true).pathsFrom_nil
  have few : (context.walks true).paths.length ≤ Nat.pow 2 context.stepLimit :=
    TypingContext.length_walksFrom_le _ _ _
  rw [← all] at few
  have fits := (context.walks true).fits_nil
  exact (context.findGlobals_of_le cap fits (few.trans enough)).trans
    (context.findGlobals_of_le cap fits few).symm

/-- The analysis of a program succeeds if and only if the program is well placed.  It then gives one
prototype for each subroutine, all of them known, and gives up no subroutine twice.  Neither a pass over
a component nor the search for the globals is ever cut short by the bound on its repetitions. -/
theorem ofProgram_outcome (program : Program) (catalog : ActionCatalog) (settings : Settings) :
    ((∃ analysis, ofProgram program catalog settings = .ok analysis) ↔ program.IsWellPlaced) ∧
    (∀ analysis, ofProgram program catalog settings = .ok analysis →
      analysis.inference.protos.size = program.subroutineCount ∧
      (∀ proto ∈ analysis.inference.protos, proto.status = .done) ∧
      (analysis.inference.failures.map (·.1)).Nodup) ∧
    (∀ (input : InferenceInput) globals budget component (state : InferenceState) rounds,
      (∀ sub ∈ component, sub < state.protos.size) → component.length + 1 ≤ rounds →
      (input.pass globals budget component rounds).run state =
        (input.pass globals budget component (component.length + 1)).run state) ∧
    ∀ (context : TypingContext) cap walks, Nat.pow 2 context.stepLimit ≤ walks →
      context.findGlobals cap walks .empty = context.globalTypes cap := by
  refine ⟨⟨?_, fun placed => ?_⟩, fun _ done => settled_of_ofProgram done,
    fun input globals budget component state rounds inside enough =>
      InferenceInput.run_pass_of_le budget inside enough,
    fun context cap walks enough => findGlobals_eq_globalTypes context cap enough⟩
  · rintro ⟨analysis, done⟩
    exact isWellPlaced_of_ofProgram done
  · obtain ⟨nonempty, increasing, land⟩ := Program.isWellPlaced_iff.mp placed
    obtain ⟨live, found, _⟩ := flowTable_eq_ok increasing land
    obtain ⟨analysis, done, _⟩ := ofProgram_eq_ok catalog settings nonempty increasing land found
      (fun _ => trivial) fun calls => InferenceInput.keeps_true _ _
    exact ⟨analysis, done⟩

theorem isWellPlaced_recursing : recursing.IsWellPlaced := by
  have increasing : ∀ command < 5, recursing.position command <
      recursing.position (command + 1) := by decide
  have land : ∀ command < 6, (Jumps.target? recursing command).isSome →
      (Jumps.destination? recursing command).isSome := by decide
  exact Program.isWellPlaced_iff.mpr
    ⟨by decide, fun command inside => increasing command (Nat.succ_lt_succ_iff.mp inside), land⟩

theorem ofProgram_outcome_recursing :
    (∃ analysis, ofProgram recursing .empty {} = .ok analysis ∧
      analysis.inference.protos.size = 1 ∧
      (∀ proto ∈ analysis.inference.protos, proto.status = .done) ∧
      (analysis.inference.failures.map (·.1)).Nodup) ∧
    (InferenceInput.pass ⟨recursing, recursingWalks.calls, .empty, {}⟩ [] none [0] 9).run
        ⟨#[{}], recursingWalks.table, #[0], [], []⟩ =
      (InferenceInput.pass ⟨recursing, recursingWalks.calls, .empty, {}⟩ [] none [0] 2).run
        ⟨#[{}], recursingWalks.table, #[0], [], []⟩ ∧
    recursingWalks.findGlobals 3000 (Nat.pow 2 25) .empty = recursingWalks.globalTypes 3000 := by
  obtain ⟨succeeds, settled, rounds, walks⟩ := ofProgram_outcome recursing .empty {}
  obtain ⟨analysis, done⟩ := succeeds.mpr isWellPlaced_recursing
  exact ⟨⟨analysis, done, settled analysis done⟩, rounds _ _ _ [0] _ 9 (by decide) (by decide),
    walks _ _ _ (by decide)⟩

end Analysis
end NwScript
