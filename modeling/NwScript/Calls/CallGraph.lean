import NwScript.Flow.Table
import NwScript.Graph.Components

/-!
# Call graphs

The nodes of a call graph are the subroutines, and every live call whose destination is the first
instruction of a subroutine is an edge labelled with that call.
-/

namespace NwScript

/-- The calls between the subroutines of a program. -/
structure CallGraph where
  /-- Edges from callers to callees, labelled with the calling instruction. -/
  graph : Digraph Nat
  /-- The callee of each instruction that is a live call. -/
  targets : Array (Option Nat)
  /-- Groups of subroutines that call each other, callees before callers. -/
  components : List (List Nat)
  deriving Repr, Inhabited

/-- Sizes of a call graph and of its condensation. -/
structure CallStatistics where
  /-- Number of subroutines. -/
  subroutines : Nat
  /-- Number of calls. -/
  calls : Nat
  /-- Number of components. -/
  components : Nat
  /-- Number of pairs of components joined by calls. -/
  componentEdges : Nat
  /-- Number of subroutines that can call themselves. -/
  recursive : Nat
  deriving DecidableEq, Repr, Inhabited

namespace Program

/-- The subroutine that begins with an instruction. -/
def subroutineAt? (program : Program) (command : Nat) : Option Nat :=
  if command < program.commandCount ∧ program.entry (program.owner command) = command then
    some (program.owner command)
  else
    none

end Program

namespace CallGraph

/-- The subroutine that an instruction calls, if it is a live call of one. -/
def callee? (program : Program) (table : FlowTable) (command : Nat) :
    Except Fault (Option Nat) :=
  if program.opcode command = .call then do
    if ← table.isDead command then
      return none
    else
      return (← table.destination command).bind program.subroutineAt?
  else
    .ok none

/-- Add the call made by an instruction, if any. -/
def addCall (program : Program) (table : FlowTable)
    (calls : Digraph Nat × Array (Option Nat)) (command : Nat) :
    Except Fault (Digraph Nat × Array (Option Nat)) := do
  match ← callee? program table command with
  | none => return calls
  | some callee =>
      let graph ← calls.1.addEdge (program.owner command) callee command
      return (graph, calls.2.setIfInBounds command (some callee))

/-- The call graph of a program with known liveness. -/
def build (program : Program) (table : FlowTable) : Except Fault CallGraph := do
  let start := (Digraph.discrete program.subroutineCount,
    Array.replicate program.commandCount none)
  let (graph, targets) ← program.commandNumbers.foldlM (addCall program table) start
  return ⟨graph, targets, graph.components⟩

/-- Number of subroutines. -/
def subroutineCount (calls : CallGraph) : Nat :=
  calls.graph.nodeCount

/-- Number of calls. -/
def edgeCount (calls : CallGraph) : Nat :=
  calls.graph.edgeCount

/-- The callee of an instruction. -/
def target? (calls : CallGraph) (command : Nat) : Option Nat :=
  calls.targets[command]?.join

/-- The subroutines that one calls, in increasing order. -/
def callees (calls : CallGraph) (caller : Nat) : List Nat :=
  let successors := calls.graph.successors caller
  calls.graph.nodes.filter successors.contains

/-- The subroutines that call one, in increasing order. -/
def callers (calls : CallGraph) (callee : Nat) : List Nat :=
  let predecessors := calls.graph.predecessors callee
  calls.graph.nodes.filter predecessors.contains

/-- The calls that a subroutine makes, with their callees, in program order. -/
def callSites (calls : CallGraph) (caller : Nat) : List (Nat × Nat) :=
  (calls.graph.outgoingEdges caller).map fun edge => (edge.2, edge.1)

/-- A subroutine can call itself, directly or through others. -/
def isRecursive (calls : CallGraph) (sub : Nat) : Bool :=
  calls.graph.hasEdge sub sub ||
    calls.components.any fun component => 1 < component.length && component.contains sub

/-- Some subroutine can call itself. -/
def hasRecursion (calls : CallGraph) : Bool :=
  calls.graph.nodes.any calls.isRecursive

/-- Sizes of the graph and of its condensation. -/
def statistics (calls : CallGraph) : CallStatistics where
  subroutines := calls.subroutineCount
  calls := calls.edgeCount
  components := calls.components.length
  componentEdges := (calls.graph.condensation calls.components).length
  recursive := calls.graph.nodes.countP calls.isRecursive

end CallGraph
end NwScript
