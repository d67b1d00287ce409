import NwScript.Flow.Jumps
import NwScript.Flow.Liveness
import NwScript.Flow.Positions
import NwScript.Typing.Inference

/-!
# Analysis of a program

The passes over the flow table, the call graph, the layout and type inference, in this order.  Only a
malformed program fails.
-/

namespace NwScript

/-- Everything that is known about a program before its statements are recovered. -/
structure Analysis where
  /-- Positions, jumps, liveness and stack heights. -/
  table : FlowTable
  /-- The calls. -/
  calls : CallGraph
  /-- The subroutines with a special role. -/
  layout : Layout
  /-- Prototypes and global types. -/
  inference : Inference
  /-- Reports, in order; none unless the run is strict. -/
  warnings : List Warning
  deriving Repr

namespace Analysis

/-- Record positions, jumps and liveness. -/
def annotate (program : Program) : FlowPass Unit := do
  Positions.record program
  Jumps.resolve program
  Liveness.mark program

/-- The flow table of a program with known liveness. -/
def flowTable (program : Program) : Except Fault FlowTable :=
  match (annotate program).runOn (.blank program.commandCount) with
  | (.ok _, table) => .ok table
  | (.error fault, _) => .error fault

/-- Analyze a program. -/
def ofProgram (program : Program) (catalog : ActionCatalog) (settings : Settings) :
    Except Fault Analysis := do
  let table ← flowTable program
  let calls ← CallGraph.build program table
  let layout ← Layout.detect program table calls
  let input : InferenceInput := { program, calls, catalog, settings }
  let (inference, state) ← (input.infer layout).run (input.initialState layout table)
  return {
    table := state.table
    calls
    layout
    inference
    warnings := state.warnings }

end Analysis
end NwScript
