import NwScript.Fault

/-!
# Programs

A program is a list of subroutines, each a non-empty list of placed instructions.  Instructions and
subroutines are numbered in program order, and every analysis keys its results by these numbers.
The arrays of a program are views of the list and are tied to it by equations.
-/

namespace NwScript

/-- An instruction and its byte position. -/
structure Placed where
  /-- Byte position of the opcode. -/
  position : Nat
  /-- The decoded instruction. -/
  instruction : Instruction
  deriving DecidableEq, Repr, Inhabited

/-- A numbered instruction of a program. -/
structure Command extends Placed where
  /-- The subroutine that holds the instruction. -/
  owner : Nat
  deriving DecidableEq, Repr, Inhabited

namespace Program

/-- The instructions of consecutive subroutines, of which the first has number `sub`. -/
def commandsFrom (sub : Nat) : List (List Placed) → List Command
  | [] => []
  | body :: bodies => body.map (fun placed => ⟨placed, sub⟩) ++ commandsFrom (sub + 1) bodies

/-- First instruction of each consecutive subroutine, followed by the number after the last. -/
def startsFrom (first : Nat) : List (List Placed) → List Nat
  | [] => [first]
  | body :: bodies => first :: startsFrom (first + body.length) bodies

end Program

/-- A parsed program. -/
structure Program where
  /-- The subroutines in program order. -/
  bodies : List (List Placed)
  /-- No subroutine is empty. -/
  bodies_ne_nil : ∀ body ∈ bodies, body ≠ []
  /-- All instructions by number. -/
  commands : Array Command
  /-- First instruction of each subroutine, and the number of instructions. -/
  starts : Array Nat
  /-- The numbered instructions are those of the subroutines in order. -/
  commands_eq : commands = (Program.commandsFrom 0 bodies).toArray
  /-- The starts are those of the subroutines in order. -/
  starts_eq : starts = (Program.startsFrom 0 bodies).toArray

namespace Program

/-- The program with given non-empty subroutines. -/
def ofNonempty (bodies : List (List Placed)) (bodies_ne_nil : ∀ body ∈ bodies, body ≠ []) :
    Program where
  bodies := bodies
  bodies_ne_nil := bodies_ne_nil
  commands := (commandsFrom 0 bodies).toArray
  starts := (startsFrom 0 bodies).toArray
  commands_eq := rfl
  starts_eq := rfl

/-- The program with given subroutines, which must not be empty. -/
def ofBodies (bodies : List (List Placed)) : Except Fault Program :=
  match missing : bodies.findIdx? (· = []) with
  | some sub => .error (.malformed (.emptySubroutine sub))
  | none =>
      .ok (ofNonempty bodies fun body member empty => by
        have nonempty := List.findIdx?_eq_none_iff.mp missing body member
        simp [empty] at nonempty)

/-- Number of instructions. -/
def commandCount (program : Program) : Nat :=
  program.commands.size

/-- Number of subroutines. -/
def subroutineCount (program : Program) : Nat :=
  program.starts.size - 1

/-- The instruction with a number, if there is one. -/
def command? (program : Program) (command : Nat) : Option Command :=
  program.commands[command]?

/-- Byte position of an instruction. -/
def position (program : Program) (command : Nat) : Nat :=
  match program.command? command with
  | some found => found.position
  | none => 0

/-- An instruction by number; there is nothing to execute outside the program. -/
def instruction (program : Program) (command : Nat) : Instruction :=
  match program.command? command with
  | some found => found.instruction
  | none => .simple .nop .void

/-- Opcode of an instruction. -/
def opcode (program : Program) (command : Nat) : Opcode :=
  (program.instruction command).opcode

/-- Subroutine that holds an instruction. -/
def owner (program : Program) (command : Nat) : Nat :=
  match program.command? command with
  | some found => found.owner
  | none => 0

/-- Byte position behind an instruction; positions are 32-bit words. -/
def positionAfter (program : Program) (command : Nat) : Nat :=
  (program.position command + (program.instruction command).size) % 0x100000000

/-- First instruction of a subroutine. -/
def entry (program : Program) (sub : Nat) : Nat :=
  program.starts.getD sub 0

/-- Instructions of a subroutine in order. -/
def body (program : Program) (sub : Nat) : List Nat :=
  let first := program.entry sub
  List.range' first (program.starts.getD (sub + 1) first - first)

/-- All subroutines in order. -/
def subroutines (program : Program) : List Nat :=
  List.range program.subroutineCount

/-- All instructions in order. -/
def commandNumbers (program : Program) : List Nat :=
  List.range program.commandCount

/-- The instruction after a given one in the same subroutine. -/
def next? (program : Program) (command : Nat) : Option Nat :=
  if command + 1 < program.commandCount ∧ program.owner (command + 1) = program.owner command then
    some (command + 1)
  else
    none

/-- The instruction before a given one in the same subroutine. -/
def previous? (program : Program) (command : Nat) : Option Nat :=
  if 0 < command ∧ program.owner (command - 1) = program.owner command then
    some (command - 1)
  else
    none

/-- The instruction before a given one has a certain opcode. -/
def follows (program : Program) (command : Nat) (test : Opcode → Bool) : Bool :=
  (program.previous? command).any fun previous => test (program.opcode previous)

end Program
end NwScript
