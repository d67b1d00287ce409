import NwScript.Bytecode.Program

/-!
# Flow tables

A flow table holds, for each instruction, its position, its jump destination, the jumps that lead to
it, its liveness and the stack height met there.  Nothing is known about an instruction before its
position is recorded.  Passes write the table; a pass that fails keeps what it wrote before.
-/

namespace NwScript

/-- What liveness analysis says about an instruction. -/
inductive CodeState where
  /-- Reachable. -/
  | normal
  /-- Unreachable. -/
  | dead
  /-- A reachable jump that only skips the right operand of a logical operator. -/
  | shortCircuit
  /-- An unreachable jump whose edge was taken out of the table. -/
  | deadJump
  deriving DecidableEq, Repr, Inhabited

namespace CodeState

/-- Unreachable code. -/
def isDead : CodeState → Bool
  | dead | deadJump => true
  | normal | shortCircuit => false

end CodeState

/-- What is known about one instruction. -/
structure FlowRow where
  /-- Byte position. -/
  position : Nat
  /-- Instruction that a jump leads to. -/
  destination : Option Nat := none
  /-- Liveness. -/
  state : CodeState := .normal
  /-- Jumps that lead here and are not dead. -/
  origins : List Nat := []
  /-- Stack height before the instruction, as a signed 32-bit word. -/
  height : Option Int := none
  deriving DecidableEq, Repr, Inhabited

/-- What is known about the instructions of a program. -/
structure FlowTable where
  /-- Rows by instruction. -/
  rows : Array (Option FlowRow)
  /-- Dead jumps by the instruction that they lead to. -/
  deadOrigins : Array (List Nat)
  deriving DecidableEq, Repr, Inhabited

namespace FlowTable

/-- The table of a number of instructions of which nothing is known. -/
def blank (size : Nat) : FlowTable :=
  ⟨Array.replicate size none, Array.replicate size []⟩

/-- Number of instructions that the table has room for. -/
def size (table : FlowTable) : Nat :=
  table.rows.size

/-- The row of an instruction, once its position is recorded. -/
def row? (table : FlowTable) (command : Nat) : Option FlowRow :=
  table.rows[command]?.join

/-- The row of an instruction, which must be known. -/
def row (table : FlowTable) (command : Nat) : Except Fault FlowRow :=
  match table.row? command with
  | some row => .ok row
  | none => .error (.notVisited command)

/-- The recorded position of an instruction. -/
def position (table : FlowTable) (command : Nat) : Except Fault Nat :=
  return (← table.row command).position

/-- The instruction that a jump leads to. -/
def destination (table : FlowTable) (command : Nat) : Except Fault (Option Nat) :=
  return (← table.row command).destination

/-- Liveness of an instruction. -/
def state (table : FlowTable) (command : Nat) : Except Fault CodeState :=
  return (← table.row command).state

/-- An instruction is unreachable. -/
def isDead (table : FlowTable) (command : Nat) : Except Fault Bool :=
  return (← table.row command).state.isDead

/-- Jumps that lead to an instruction. -/
def origins (table : FlowTable) (command : Nat) : Except Fault (List Nat) :=
  return (← table.row command).origins

/-- Dead jumps that would lead to an instruction. -/
def deadOriginsOf (table : FlowTable) (command : Nat) : List Nat :=
  table.deadOrigins.getD command []

/-- The stack height met at an instruction. -/
def height? (table : FlowTable) (command : Nat) : Option Int :=
  (table.row? command).bind (·.height)

/-- Forget an instruction but for its position. -/
def visit (table : FlowTable) (command position : Nat) : FlowTable :=
  { table with rows := table.rows.setIfInBounds command (some { position }) }

/-- Change the row of an instruction, which must be known. -/
def update (table : FlowTable) (command : Nat) (change : FlowRow → FlowRow) :
    Except Fault FlowTable :=
  match table.row? command with
  | some row =>
      .ok { table with rows := table.rows.setIfInBounds command (some (change row)) }
  | none => .error (.notVisited command)

/-- Record where a jump leads. -/
def setDestination (table : FlowTable) (command destination : Nat) : Except Fault FlowTable :=
  table.update command fun row => { row with destination := some destination }

/-- Record the liveness of an instruction. -/
def setState (table : FlowTable) (command : Nat) (state : CodeState) : Except Fault FlowTable :=
  table.update command fun row => { row with state }

/-- Record the stack height at an instruction, as a signed 32-bit word. -/
def setHeight (table : FlowTable) (command : Nat) (height : Int) : Except Fault FlowTable :=
  table.update command fun row => { row with height := some (height.bmod 0x100000000) }

/-- Record a jump at the instruction that it leads to, once. -/
def addOrigin (table : FlowTable) (destination origin : Nat) : Except Fault FlowTable :=
  table.update destination fun row =>
    if origin ∈ row.origins then row else { row with origins := row.origins ++ [origin] }

/-- Move a recorded jump to the dead ones. -/
def killOrigin (table : FlowTable) (destination origin : Nat) : Except Fault FlowTable :=
  match table.row? destination with
  | some row =>
      if origin ∈ row.origins then
        .ok
          { rows := table.rows.setIfInBounds destination
              (some { row with origins := row.origins.erase origin })
            deadOrigins := table.deadOrigins.modify destination (· ++ [origin]) }
      else
        .ok table
  | none => .error (.notVisited destination)

end FlowTable

/-- A pass over a program that writes the flow table and may fail midway. -/
abbrev FlowPass (α : Type) := ExceptT Fault (StateM FlowTable) α

namespace FlowPass

/-- Replace the table, or fail and keep it. -/
def apply (change : FlowTable → Except Fault FlowTable) : FlowPass Unit := do
  match change (← get) with
  | .ok table => set table
  | .error fault => throw fault

/-- Look something up in the table. -/
def ask {α : Type} (query : FlowTable → Except Fault α) : FlowPass α := do
  match query (← get) with
  | .ok answer => return answer
  | .error fault => throw fault

/-- Run a pass on a table. -/
def runOn {α : Type} (pass : FlowPass α) (table : FlowTable) : Except Fault α × FlowTable :=
  StateT.run (ExceptT.run pass) table

end FlowPass
end NwScript
