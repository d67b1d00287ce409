import NwScript.Bytecode.Program

/-!
# Assembly with labels

An assembler collects instructions and jumps to labels, subroutine by subroutine.  Labels may be
placed before or after the jumps that use them.  Assembling gives every instruction its position,
starting behind the file header, and every jump the distance to its label.
-/

namespace NwScript

/-- An instruction that waits for its position. -/
inductive Pending where
  /-- An instruction with all its operands. -/
  | fixed (instruction : Instruction)
  /-- A jump to a label. -/
  | jump (opcode : Opcode) (label : Nat)
  deriving DecidableEq, Repr, Inhabited

namespace Pending

/-- Encoded size, which is known before labels are resolved. -/
def size : Pending → Nat
  | fixed instruction => instruction.size
  | jump _ _ => Instruction.jumpSize

end Pending

/-- A program under assembly. -/
structure Assembler where
  /-- The subroutines begun so far. -/
  subroutines : Array (Array Pending)
  /-- For each label the number of the instruction it stands before. -/
  labels : Array (Option Nat)
  /-- Number of instructions emitted so far. -/
  emitted : Nat
  deriving Repr, Inhabited

namespace Assembler

/-- The assembler before any operation. -/
def empty : Assembler := ⟨#[], #[], 0⟩

/-- Introduce a label that stands nowhere yet. -/
def label (assembler : Assembler) : Assembler × Nat :=
  ({ assembler with labels := assembler.labels.push none }, assembler.labels.size)

/-- Let a label stand before the next instruction. -/
def place (assembler : Assembler) (label : Nat) : Assembler :=
  { assembler with labels := assembler.labels.setIfInBounds label (some assembler.emitted) }

/-- Begin a subroutine. -/
def subroutine (assembler : Assembler) : Assembler :=
  { assembler with subroutines := assembler.subroutines.push #[] }

/-- Begin a subroutine and let a label stand before it. -/
def subroutineAt (assembler : Assembler) (label : Nat) : Assembler :=
  assembler.subroutine.place label

/-- Append to the current subroutine, beginning one if there is none. -/
def push (assembler : Assembler) (pending : Pending) : Assembler :=
  { assembler with
    subroutines :=
      match assembler.subroutines.size with
      | 0 => #[#[pending]]
      | count + 1 => assembler.subroutines.modify count (·.push pending)
    emitted := assembler.emitted + 1 }

/-- Emit an instruction with all its operands. -/
def emit (assembler : Assembler) (instruction : Instruction) : Assembler :=
  assembler.push (.fixed instruction)

/-- Emit a jump to a label. -/
def jump (assembler : Assembler) (opcode : Opcode) (label : Nat) : Assembler :=
  assembler.push (.jump opcode label)

/-- Positions of consecutive instructions of which the first stands at `position`. -/
def positionsFrom (position : Nat) : List Pending → List Nat
  | [] => []
  | pending :: rest => position :: positionsFrom (position + pending.size) rest

/-- Position of the instruction that a label stands before. -/
def target (assembler : Assembler) (positions : Array Nat) (label : Nat) : Except Fault Nat :=
  match assembler.labels[label]? with
  | some (some index) =>
      match positions[index]? with
      | some position => .ok position
      | none => .error (.malformed (.labelPastEnd label))
  | _ => .error (.malformed (.unplacedLabel label))

/-- The signed 32-bit distance between two positions. -/
def distance (source target : Nat) : Int :=
  ((target : Int) - source).bmod 0x100000000

/-- Resolve one instruction at its position. -/
def resolve (assembler : Assembler) (positions : Array Nat) (position : Nat) :
    Pending → Except Fault Placed
  | .fixed instruction => .ok ⟨position, instruction⟩
  | .jump opcode label => do
      let target ← assembler.target positions label
      return ⟨position, .jump opcode (distance position target)⟩

/-- Resolve the instructions of one subroutine from a position on. -/
def resolveBody (assembler : Assembler) (positions : Array Nat) (position : Nat) :
    List Pending → Except Fault (List Placed)
  | [] => .ok []
  | pending :: rest => do
      let placed ← assembler.resolve positions position pending
      return placed :: (← assembler.resolveBody positions (position + pending.size) rest)

/-- Resolve consecutive subroutines from a position on. -/
def resolveBodies (assembler : Assembler) (positions : Array Nat) (position : Nat) :
    List (List Pending) → Except Fault (List (List Placed))
  | [] => .ok []
  | body :: bodies => do
      let placed ← assembler.resolveBody positions position body
      let following := position + (body.map Pending.size).foldr (· + ·) 0
      return placed :: (← assembler.resolveBodies positions following bodies)

/-- Assign positions, resolve labels and build the program. -/
def assemble (assembler : Assembler) : Except Fault Program := do
  let bodies := assembler.subroutines.toList.map Array.toList
  let positions := (positionsFrom Instruction.headerSize bodies.flatten).toArray
  let placed ← assembler.resolveBodies positions Instruction.headerSize bodies
  Program.ofBodies placed

end Assembler
end NwScript
