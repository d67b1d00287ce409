import Mathlib.Data.List.Chain
import NwScript.Bytecode.Assembler
import NwScript.Proofs.SingleRoutine

/-!
# Code without overlaps

In a program that comes from a file or an assembler each instruction begins behind the one before it,
also across subroutines, and every position is a word.  Numbers and positions of instructions then
have the same order, and so do the positions behind them.
-/

namespace NwScript

section Placing

/-- Code may be placed in pieces. -/
theorem placedFrom_append (position : Nat) (first second : List Instruction) :
    placedFrom position (first ++ second) =
      placedFrom position first ++ placedFrom (position + codeSize first) second := by
  induction first generalizing position with
  | nil => rfl
  | cons instruction first induction =>
      rw [List.cons_append, placedFrom, induction, placedFrom, List.cons_append, codeSize_cons,
        Nat.add_assoc]

/-- Placed code has no gaps. -/
theorem isChain_placedFrom (position : Nat) (code : List Instruction) :
    (placedFrom position code).IsChain fun placed next =>
      placed.position + placed.instruction.size ≤ next.position := by
  induction code generalizing position with
  | nil => exact .nil
  | cons instruction code induction =>
      cases code with
      | nil => exact .singleton _
      | cons next code => exact .cons_cons (Nat.le_refl _) (induction (position + instruction.size))

/-- Placed code ends where its sizes say. -/
theorem ends_placedFrom {position : Nat} {code : List Instruction} {placed : Placed}
    (listed : placed ∈ placedFrom position code) :
    placed.position + placed.instruction.size ≤ position + codeSize code := by
  induction code generalizing position with
  | nil => exact absurd listed List.not_mem_nil
  | cons instruction code induction =>
      rw [codeSize_cons]
      rcases List.mem_cons.mp listed with rfl | later
      · exact Nat.add_le_add_left (Nat.le_add_right _ _) position
      · have ends := induction later
        omega

end Placing

namespace Program

/-- Instructions lie one behind another, and positions are words. -/
structure IsLaidOut (program : Program) : Prop where
  /-- An instruction begins behind the one before it. -/
  behind : program.bodies.flatten.IsChain fun placed next =>
    placed.position + placed.instruction.size ≤ next.position
  /-- Instructions end at words. -/
  words : ∀ placed ∈ program.bodies.flatten,
    placed.position + placed.instruction.size < 0x100000000

/-- A program has the subroutines that it is built from. -/
theorem bodies_of_ofBodies {bodies : List (List Placed)} {program : Program}
    (built : ofBodies bodies = .ok program) : program.bodies = bodies := by
  unfold ofBodies at built
  split at built
  · cases built
  · cases built
    rfl

theorem ofBodies_eq_ok {bodies : List (List Placed)} (nonempty : ∀ body ∈ bodies, body ≠ []) :
    ofBodies bodies = .ok (ofNonempty bodies nonempty) := by
  unfold ofBodies
  split
  · rename_i sub missing
    obtain ⟨inside, empty, -⟩ := List.findIdx?_eq_some_iff_getElem.mp missing
    exact absurd (of_decide_eq_true empty) (nonempty _ (List.getElem_mem inside))
  · rfl

theorem map_commandsFrom (sub : Nat) (bodies : List (List Placed)) :
    (commandsFrom sub bodies).map (·.toPlaced) = bodies.flatten := by
  induction bodies generalizing sub with
  | nil => rfl
  | cons body bodies induction => simp [commandsFrom, induction, Function.comp_def]

theorem commandCount_eq_length (program : Program) :
    program.commandCount = program.bodies.flatten.length := by
  rw [commandCount, ← Array.length_toList, program.commands_eq, List.toList_toArray,
    ← List.length_map (·.toPlaced), map_commandsFrom]

/-- The instructions of the subroutines are numbered through. -/
theorem map_command? (program : Program) (command : Nat) :
    (program.command? command).map (·.toPlaced) = program.bodies.flatten[command]? := by
  rw [command?, ← map_commandsFrom 0, program.commands_eq, List.getElem?_toArray, List.getElem?_map]

/-- An instruction with its position. -/
theorem exists_placed {program : Program} {command : Nat} (inside : command < program.commandCount) :
    ∃ placed, program.bodies.flatten[command]? = some placed ∧
      program.position command = placed.position ∧
      program.instruction command = placed.instruction := by
  have found : program.command? command = some program.commands[command] :=
    Array.getElem?_eq_getElem inside
  refine ⟨program.commands[command].toPlaced, ?_, ?_, ?_⟩
  · rw [← map_command?, found]
    rfl
  · rw [position, found]
  · rw [instruction, found]

/-- In code without overlaps an instruction begins behind the one before it. -/
theorem next_le_of_isChain {program : Program} {command : Nat}
    (behind : program.bodies.flatten.IsChain fun placed next =>
      placed.position + placed.instruction.size ≤ next.position)
    (inside : command + 1 < program.commandCount) :
    program.position command + (program.instruction command).size ≤ program.position (command + 1) := by
  obtain ⟨placed, here, position, instruction⟩ := exists_placed (Nat.lt_of_succ_lt inside)
  obtain ⟨next, there, onward, -⟩ := exists_placed inside
  rw [position, instruction, onward]
  obtain ⟨bound, rfl⟩ := List.getElem?_eq_some_iff.mp there
  obtain ⟨_, rfl⟩ := List.getElem?_eq_some_iff.mp here
  exact List.isChain_iff_getElem.mp behind command bound

/-- So positions increase. -/
theorem increasing_of_placedFrom {program : Program} {position : Nat} {code : List Instruction}
    (placed : program.bodies.flatten = placedFrom position code) : Positions.Increasing program := by
  intro command inside
  have behind := next_le_of_isChain (placed ▸ isChain_placedFrom position code) inside
  have size := (program.instruction command).size_pos
  omega

namespace IsLaidOut

variable {program : Program} {command other : Nat} (laid : program.IsLaidOut)

include laid

theorem next_le (inside : command + 1 < program.commandCount) :
    program.position command + (program.instruction command).size ≤ program.position (command + 1) :=
  next_le_of_isChain laid.behind inside

/-- Nothing wraps around. -/
theorem positionAfter_eq (inside : command < program.commandCount) :
    program.positionAfter command = program.position command + (program.instruction command).size := by
  obtain ⟨placed, here, position, instruction⟩ := exists_placed inside
  rw [positionAfter, position, instruction]
  exact Nat.mod_eq_of_lt (laid.words placed (List.mem_of_getElem? here))

theorem lt_positionAfter (inside : command < program.commandCount) :
    program.position command < program.positionAfter command := by
  have size := (program.instruction command).size_pos
  rw [laid.positionAfter_eq inside]
  omega

theorem positionAfter_le (order : command < other) (inside : other < program.commandCount) :
    program.positionAfter command ≤ program.position other := by
  induction other with
  | zero => exact absurd order (Nat.not_lt_zero _)
  | succ other induction =>
      have here := laid.next_le inside
      rcases Nat.lt_or_ge command other with before | last
      · have earlier := induction before (by omega)
        omega
      · obtain rfl : command = other := by omega
        rwa [laid.positionAfter_eq (by omega)]

theorem position_lt (order : command < other) (inside : other < program.commandCount) :
    program.position command < program.position other :=
  Nat.lt_of_lt_of_le (laid.lt_positionAfter (Nat.lt_trans order inside))
    (laid.positionAfter_le order inside)

/-- What begins later ends later. -/
theorem positionAfter_mono (exists_other : other < program.commandCount)
    (inside : command < program.commandCount)
    (order : program.position other ≤ program.position command) :
    program.positionAfter other ≤ program.positionAfter command := by
  rcases Nat.lt_trichotomy other command with before | rfl | behind
  · exact Nat.le_trans (laid.positionAfter_le before inside)
      (Nat.le_of_lt (laid.lt_positionAfter inside))
  · exact Nat.le_refl _
  · exact absurd (laid.position_lt behind exists_other) (Nat.not_lt.mpr order)

end IsLaidOut

/-- Code that is placed without gaps is laid out if it ends at a word. -/
theorem isLaidOut_of_placedFrom {program : Program} {position : Nat} {code : List Instruction}
    (placed : program.bodies.flatten = placedFrom position code)
    (fits : position + codeSize code < 0x100000000) : program.IsLaidOut := by
  refine ⟨?_, fun found listed => ?_⟩
  · rw [placed]
    exact isChain_placedFrom position code
  · rw [placed] at listed
    exact Nat.lt_of_le_of_lt (ends_placedFrom listed) fits

theorem IsAlone.isLaidOut {program : Program} {code : List Instruction} (alone : program.IsAlone code)
    (fits : Instruction.headerSize + codeSize code < 0x100000000) : program.IsLaidOut := by
  refine isLaidOut_of_placedFrom ?_ fits
  rw [alone, List.flatten_singleton]

end Program

namespace Assembler

variable {assembler : Assembler} {positions : Array Nat} {position : Nat}

/-- Bytes of what waits for its position. -/
def pendingSize (body : List Pending) : Nat :=
  (body.map Pending.size).foldr (· + ·) 0

/-- What succeeds has succeeded in its first part. -/
theorem exists_of_bind_eq_ok {α β : Type} {first : Except Fault α} {next : α → Except Fault β}
    {result : β} (whole : first >>= next = .ok result) :
    ∃ value, first = .ok value ∧ next value = .ok result := by
  cases first with
  | error fault => cases whole
  | ok value => exact ⟨value, rfl, whole⟩

/-- Resolving an instruction keeps its size. -/
theorem resolve_spec {pending : Pending} {placed : Placed}
    (resolved : assembler.resolve positions position pending = .ok placed) :
    placed.position = position ∧ placed.instruction.size = pending.size := by
  cases pending with
  | fixed instruction =>
      cases resolved
      exact ⟨rfl, rfl⟩
  | jump opcode label =>
      obtain ⟨target, -, last⟩ := exists_of_bind_eq_ok resolved
      cases last
      exact ⟨rfl, rfl⟩

/-- The instructions of a subroutine are placed without gaps. -/
theorem resolveBody_spec {body : List Pending} {placed : List Placed}
    (resolved : assembler.resolveBody positions position body = .ok placed) :
    ∃ code, placed = placedFrom position code ∧ codeSize code = pendingSize body := by
  induction body generalizing position placed with
  | nil =>
      cases resolved
      exact ⟨[], rfl, rfl⟩
  | cons pending body induction =>
      obtain ⟨head, first, rest⟩ := exists_of_bind_eq_ok resolved
      obtain ⟨tail, others, last⟩ := exists_of_bind_eq_ok rest
      cases last
      obtain ⟨rfl, size⟩ := resolve_spec first
      obtain ⟨code, rfl, total⟩ := induction others
      refine ⟨head.instruction :: code, ?_, ?_⟩
      · rw [placedFrom, size]
      · rw [codeSize_cons, size, total]
        rfl

/-- So are those of consecutive subroutines. -/
theorem resolveBodies_spec {bodies : List (List Pending)} {placed : List (List Placed)}
    (resolved : assembler.resolveBodies positions position bodies = .ok placed) :
    ∃ code, placed.flatten = placedFrom position code := by
  induction bodies generalizing position placed with
  | nil =>
      cases resolved
      exact ⟨[], rfl⟩
  | cons body bodies induction =>
      obtain ⟨head, first, rest⟩ := exists_of_bind_eq_ok resolved
      obtain ⟨tail, others, last⟩ := exists_of_bind_eq_ok rest
      cases last
      obtain ⟨code, rfl, size⟩ := resolveBody_spec first
      obtain ⟨more, same⟩ := induction others
      refine ⟨code ++ more, ?_⟩
      rw [List.flatten_cons, same, placedFrom_append, size]
      rfl

/-- An assembled program is laid out if its instructions end at words. -/
theorem isLaidOut_of_assemble {program : Program} (assembled : assembler.assemble = .ok program)
    (words : ∀ placed ∈ program.bodies.flatten,
      placed.position + placed.instruction.size < 0x100000000) : program.IsLaidOut := by
  obtain ⟨placed, resolved, built⟩ := exists_of_bind_eq_ok assembled
  obtain ⟨code, same⟩ := resolveBodies_spec resolved
  refine ⟨?_, words⟩
  rw [Program.bodies_of_ofBodies built, same]
  exact isChain_placedFrom _ code

end Assembler

end NwScript
