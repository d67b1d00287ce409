import Mathlib.Algebra.Order.Ring.Nat
import Mathlib.Data.List.Basic
import NwScript.Bytecode.Program

/-!
# Numbering of instructions

The instructions of a subroutine have consecutive numbers, and the subroutines follow each other
without gaps.  So an instruction is fixed by its subroutine and its place there, and its neighbours in
the subroutine are the numbers next to its own.
-/

namespace NwScript
namespace Program

/-- Number of instructions in the first of some subroutines. -/
def offset (bodies : List (List Placed)) (count : Nat) : Nat :=
  ((bodies.take count).map List.length).sum

@[simp]
theorem offset_zero (bodies : List (List Placed)) : offset bodies 0 = 0 := by
  simp [offset]

theorem offset_succ {bodies : List (List Placed)} {sub : Nat} {body : List Placed}
    (found : bodies[sub]? = some body) :
    offset bodies (sub + 1) = offset bodies sub + body.length := by
  obtain ⟨inside, rfl⟩ := List.getElem?_eq_some_iff.mp found
  simp only [offset, List.take_succ_eq_append_getElem inside, List.map_append, List.map_cons,
    List.map_nil, List.sum_append, List.sum_cons, List.sum_nil, Nat.add_zero]

theorem offset_mono (bodies : List (List Placed)) {first last : Nat} (order : first ≤ last) :
    offset bodies first ≤ offset bodies last := by
  obtain ⟨more, rfl⟩ := Nat.exists_eq_add_of_le order
  simp only [offset, List.take_add, List.map_append, List.sum_append]
  omega

theorem length_commandsFrom (sub : Nat) (bodies : List (List Placed)) :
    (commandsFrom sub bodies).length = offset bodies bodies.length := by
  induction bodies generalizing sub with
  | nil => rfl
  | cons body bodies induction => simp [commandsFrom, induction, offset]

/-- The instruction at a place of a subroutine has the number of instructions before it. -/
theorem getElem?_commandsFrom {bodies : List (List Placed)} {sub place : Nat} {body : List Placed}
    {placed : Placed} (first : Nat) (found : bodies[sub]? = some body)
    (here : body[place]? = some placed) :
    (commandsFrom first bodies)[offset bodies sub + place]? = some ⟨placed, first + sub⟩ := by
  induction bodies generalizing sub first with
  | nil => simp at found
  | cons head bodies induction =>
      cases sub with
      | zero =>
          obtain rfl : head = body := by simpa using found
          obtain ⟨inside, rfl⟩ := List.getElem?_eq_some_iff.mp here
          simp [commandsFrom, List.getElem?_append_left, inside]
      | succ sub =>
          have deeper := induction (first + 1) (by simpa using found)
          have start : offset (head :: bodies) (sub + 1) = head.length + offset bodies sub := by
            simp [offset]
          rw [start, commandsFrom, List.getElem?_append_right (by simp; omega)]
          rw [List.length_map, Nat.add_assoc, Nat.add_sub_cancel_left, deeper]
          congr 2
          omega

theorem getElem?_startsFrom (bodies : List (List Placed)) (first sub : Nat)
    (inside : sub ≤ bodies.length) :
    (startsFrom first bodies)[sub]? = some (first + offset bodies sub) := by
  induction bodies generalizing sub first with
  | nil =>
      obtain rfl : sub = 0 := by simpa using inside
      simp [startsFrom]
  | cons head bodies induction =>
      cases sub with
      | zero => simp [startsFrom]
      | succ sub =>
          have deeper := induction (first + head.length) sub (by simpa using inside)
          simp only [startsFrom, List.getElem?_cons_succ, deeper, offset, List.take_succ_cons,
            List.map_cons, List.sum_cons]
          congr 1
          omega

theorem length_startsFrom (first : Nat) (bodies : List (List Placed)) :
    (startsFrom first bodies).length = bodies.length + 1 := by
  induction bodies generalizing first with
  | nil => rfl
  | cons head bodies induction => simp [startsFrom, induction]

variable {program : Program}

theorem commandCount_eq (program : Program) :
    program.commandCount = offset program.bodies program.bodies.length := by
  simp [commandCount, program.commands_eq, length_commandsFrom]

theorem subroutineCount_eq (program : Program) :
    program.subroutineCount = program.bodies.length := by
  simp [subroutineCount, program.starts_eq, length_startsFrom]

theorem starts_getD {sub : Nat} (inside : sub ≤ program.bodies.length) (default : Nat) :
    program.starts.getD sub default = offset program.bodies sub := by
  simp [program.starts_eq, Array.getD_eq_getD_getElem?, getElem?_startsFrom _ 0 sub inside]

theorem entry_eq {sub : Nat} (inside : sub ≤ program.bodies.length) :
    program.entry sub = offset program.bodies sub :=
  starts_getD inside 0

/-- The numbers of the instructions of a subroutine. -/
theorem body_eq {sub : Nat} {body : List Placed} (found : program.bodies[sub]? = some body) :
    program.body sub = List.range' (offset program.bodies sub) body.length := by
  obtain ⟨inside, rfl⟩ := List.getElem?_eq_some_iff.mp found
  simp only [Program.body, entry_eq (Nat.le_of_lt inside)]
  rw [starts_getD inside, offset_succ found, Nat.add_sub_cancel_left]

/-- An instruction stands at some place of some subroutine. -/
structure StandsAt (program : Program) (command sub place : Nat) (body : List Placed)
    (placed : Placed) : Prop where
  /-- The subroutine. -/
  holder : program.bodies[sub]? = some body
  /-- The instruction and its position. -/
  here : body[place]? = some placed
  /-- The number of the instruction. -/
  number : command = offset program.bodies sub + place

theorem StandsAt.command? {command sub place : Nat} {body : List Placed} {placed : Placed}
    (stands : StandsAt program command sub place body placed) :
    program.command? command = some ⟨placed, sub⟩ := by
  have found := getElem?_commandsFrom 0 stands.holder stands.here
  simpa [Program.command?, program.commands_eq, stands.number] using found

theorem StandsAt.owner {command sub place : Nat} {body : List Placed} {placed : Placed}
    (stands : StandsAt program command sub place body placed) : program.owner command = sub := by
  simp [Program.owner, stands.command?]

theorem StandsAt.instruction {command sub place : Nat} {body : List Placed} {placed : Placed}
    (stands : StandsAt program command sub place body placed) :
    program.instruction command = placed.instruction := by
  simp [Program.instruction, stands.command?]

theorem StandsAt.position {command sub place : Nat} {body : List Placed} {placed : Placed}
    (stands : StandsAt program command sub place body placed) :
    program.position command = placed.position := by
  simp [Program.position, stands.command?]

theorem StandsAt.lt_next {command sub place : Nat} {body : List Placed} {placed : Placed}
    (stands : StandsAt program command sub place body placed) :
    command < offset program.bodies (sub + 1) := by
  obtain ⟨inside, _⟩ := List.getElem?_eq_some_iff.mp stands.here
  rw [offset_succ stands.holder, stands.number]
  omega

theorem StandsAt.lt_commandCount {command sub place : Nat} {body : List Placed} {placed : Placed}
    (stands : StandsAt program command sub place body placed) :
    command < program.commandCount := by
  obtain ⟨inside, _⟩ := List.getElem?_eq_some_iff.mp stands.holder
  rw [commandCount_eq]
  exact Nat.lt_of_lt_of_le stands.lt_next (offset_mono _ inside)

/-- Every numbered instruction stands somewhere. -/
theorem exists_standsAt {command : Nat} (inside : command < program.commandCount) :
    ∃ sub place body placed, StandsAt program command sub place body placed := by
  have search : ∀ count, command < offset program.bodies count →
      ∃ sub place body placed, StandsAt program command sub place body placed := by
    intro count
    induction count with
    | zero => simp
    | succ count induction =>
        intro below
        by_cases before : command < offset program.bodies count
        · exact induction before
        · cases found : program.bodies[count]? with
          | none =>
              have outside := List.getElem?_eq_none_iff.mp found
              simp only [offset, List.take_of_length_le outside,
                List.take_of_length_le (Nat.le_succ_of_le outside)] at before below
              omega
          | some body =>
              rw [offset_succ found] at below
              obtain ⟨place, rfl⟩ := Nat.exists_eq_add_of_le (Nat.not_lt.mp before)
              have here : place < body.length := by omega
              exact ⟨count, place, body, body[place],
                ⟨found, List.getElem?_eq_getElem here, rfl⟩⟩
  rw [commandCount_eq] at inside
  exact search _ inside

/-- An instruction belongs to the subroutine that its number lies in. -/
theorem owner_eq_iff {command sub : Nat} (inside : command < program.commandCount) :
    program.owner command = sub ↔
      offset program.bodies sub ≤ command ∧ command < offset program.bodies (sub + 1) := by
  obtain ⟨owner, place, body, placed, stands⟩ := exists_standsAt inside
  have low : offset program.bodies owner ≤ command := by
    rw [stands.number]
    omega
  have high := stands.lt_next
  rw [stands.owner]
  constructor
  · rintro rfl
    exact ⟨low, high⟩
  · rintro ⟨from_, below⟩
    rcases Nat.lt_trichotomy owner sub with less | same | more
    · have apart : offset program.bodies (owner + 1) ≤ offset program.bodies sub :=
        offset_mono _ less
      omega
    · exact same
    · have apart : offset program.bodies (sub + 1) ≤ offset program.bodies owner :=
        offset_mono _ more
      omega

theorem mem_body_iff {command sub : Nat} (inside : sub < program.subroutineCount) :
    command ∈ program.body sub ↔
      command < program.commandCount ∧ program.owner command = sub := by
  rw [subroutineCount_eq] at inside
  have found := List.getElem?_eq_getElem inside
  have last : offset program.bodies (sub + 1) ≤ program.commandCount := by
    rw [commandCount_eq]
    exact offset_mono _ inside
  have next := offset_succ found
  rw [body_eq found, List.mem_range'_1]
  constructor
  · rintro ⟨low, high⟩
    have bound : command < program.commandCount := by omega
    exact ⟨bound, (owner_eq_iff bound).mpr ⟨low, by omega⟩⟩
  · rintro ⟨bound, owned⟩
    obtain ⟨low, high⟩ := (owner_eq_iff bound).mp owned
    exact ⟨low, by omega⟩

theorem owner_lt {command : Nat} (inside : command < program.commandCount) :
    program.owner command < program.subroutineCount := by
  obtain ⟨sub, place, body, placed, stands⟩ := exists_standsAt inside
  rw [stands.owner, subroutineCount_eq]
  exact (List.getElem?_eq_some_iff.mp stands.holder).1

/-- Every instruction is in the body of its subroutine. -/
theorem mem_body_owner {command : Nat} (inside : command < program.commandCount) :
    command ∈ program.body (program.owner command) :=
  (mem_body_iff (owner_lt inside)).mpr ⟨inside, rfl⟩

theorem offset_lt_offset_succ {sub : Nat} (inside : sub < program.bodies.length) :
    offset program.bodies sub < offset program.bodies (sub + 1) := by
  have filled := program.bodies_ne_nil _ (List.getElem_mem inside)
  have length : 0 < program.bodies[sub].length := List.length_pos_iff.mpr filled
  rw [offset_succ (List.getElem?_eq_getElem inside)]
  omega

/-- The first instruction of a subroutine exists. -/
theorem entry_lt {sub : Nat} (inside : sub < program.subroutineCount) :
    program.entry sub < program.commandCount := by
  rw [subroutineCount_eq] at inside
  rw [entry_eq (Nat.le_of_lt inside), commandCount_eq]
  exact Nat.lt_of_lt_of_le (offset_lt_offset_succ inside) (offset_mono _ inside)

theorem owner_entry {sub : Nat} (counted : sub < program.subroutineCount) :
    program.owner (program.entry sub) = sub := by
  rw [owner_eq_iff (entry_lt counted)]
  rw [subroutineCount_eq] at counted
  rw [entry_eq (Nat.le_of_lt counted)]
  exact ⟨Nat.le_refl _, offset_lt_offset_succ counted⟩

theorem entry_mono {first last : Nat} (order : first ≤ last)
    (inside : last < program.subroutineCount) : program.entry first ≤ program.entry last := by
  rw [subroutineCount_eq] at inside
  rw [entry_eq (by omega), entry_eq (by omega)]
  exact offset_mono _ order

theorem entry_owner_le {command : Nat} (inside : command < program.commandCount) :
    program.entry (program.owner command) ≤ command := by
  have owned := owner_lt inside
  rw [subroutineCount_eq] at owned
  rw [entry_eq (Nat.le_of_lt owned)]
  exact ((owner_eq_iff inside).mp rfl).1

theorem lt_entry_of_owner_lt {command sub : Nat} (inside : command < program.commandCount)
    (before : program.owner command < sub) (counted : sub < program.subroutineCount) :
    command < program.entry sub := by
  rw [subroutineCount_eq] at counted
  rw [entry_eq (Nat.le_of_lt counted)]
  exact Nat.lt_of_lt_of_le ((owner_eq_iff inside).mp rfl).2 (offset_mono _ before)

/-- The instructions of a subroutine follow its first one. -/
theorem exists_body_eq {sub : Nat} (inside : sub < program.subroutineCount) :
    ∃ count, program.body sub = List.range' (program.entry sub) count ∧
      program.entry sub + count ≤ program.commandCount := by
  rw [subroutineCount_eq] at inside
  have found := List.getElem?_eq_getElem inside
  refine ⟨program.bodies[sub].length, ?_, ?_⟩
  · rw [entry_eq (Nat.le_of_lt inside)]
    exact body_eq found
  · rw [entry_eq (Nat.le_of_lt inside), ← offset_succ found, commandCount_eq]
    exact offset_mono _ inside

/-- The place of an instruction in its subroutine tells the instructions before and behind it. -/
theorem body_split {sub command : Nat} (inside : sub < program.subroutineCount)
    {before after : List Nat} (split : program.body sub = before ++ command :: after) :
    ∃ first count, before = List.range' first before.length ∧ command = first + before.length ∧
      after = List.range' (command + 1) count := by
  rw [subroutineCount_eq] at inside
  rw [body_eq (List.getElem?_eq_getElem inside)] at split
  obtain ⟨count, _, rfl, tail⟩ := List.range'_eq_append_iff.mp split
  obtain ⟨rfl, _, rfl⟩ := List.range'_eq_cons_iff.mp tail.symm
  exact ⟨offset program.bodies sub, _, by simp, by simp, rfl⟩

theorem next?_eq_ite {sub command : Nat} (inside : sub < program.subroutineCount)
    (listed : command ∈ program.body sub) :
    program.next? command =
      if command + 1 ∈ program.body sub then some (command + 1) else none := by
  obtain ⟨_, owned⟩ := (mem_body_iff inside).mp listed
  simp only [next?, mem_body_iff inside, owned]

theorem previous?_eq_ite {sub command : Nat} (inside : sub < program.subroutineCount)
    (listed : command ∈ program.body sub) :
    program.previous? command =
      if 0 < command ∧ command - 1 ∈ program.body sub then some (command - 1) else none := by
  obtain ⟨bound, owned⟩ := (mem_body_iff inside).mp listed
  have before : command - 1 < program.commandCount := by omega
  simp only [previous?, mem_body_iff inside, owned, before, true_and]

/-- The next instruction is the one behind in the order of the subroutine. -/
theorem next?_of_body {sub command : Nat} (inside : sub < program.subroutineCount)
    {before after : List Nat} (split : program.body sub = before ++ command :: after) :
    program.next? command = after.head? := by
  obtain ⟨first, count, front, rfl, rfl⟩ := body_split inside split
  rw [next?_eq_ite inside (by simp [split]), split, front]
  cases count with
  | zero => simp [List.mem_range'_1]
  | succ count => simp [List.range'_succ]

/-- The previous instruction is the one before in the order of the subroutine. -/
theorem previous?_of_body {sub command : Nat} (inside : sub < program.subroutineCount)
    {before after : List Nat} (split : program.body sub = before ++ command :: after) :
    program.previous? command = before.getLast? := by
  obtain ⟨first, count, front, rfl, rfl⟩ := body_split inside split
  rw [previous?_eq_ite inside (by simp [split]), split, front]
  generalize before.length = length
  cases length with
  | zero => simp [List.mem_range'_1]; omega
  | succ length => simp [List.range'_concat, List.mem_range'_1]

end Program
end NwScript
