import NwScript.Proofs.CallTargets
import NwScript.Proofs.LaidOutCode
import NwScript.Proofs.StructuredCode

/-!
# Code that prints and calls

Subroutines without parameters and results that print, call each other, and call each other if a random
number is not zero.  The subroutines lie one behind the other, a test leads behind the call that it guards,
and a call leads to the first instruction of a subroutine.  So every jump lands, and everything is reached
once the first subroutine calls all the others.
-/

namespace NwScript

/-- What a subroutine does before it returns. -/
inductive Passage where
  /-- A print. -/
  | print (text : String)
  /-- A call. -/
  | call (callee : Nat)
  /-- A call that is skipped if a random number is zero. -/
  | guarded (callee : Nat)
  deriving Repr, Inhabited

namespace Passage

/-- The subroutine that is called, if any. -/
def callee? : Passage → Option Nat
  | print _ => none
  | call callee | guarded callee => some callee

/-- Whether a test decides about the call. -/
def isGuarded : Passage → Bool
  | guarded _ => true
  | _ => false

/-- Bytes of the code. -/
def size : Passage → Nat
  | print text => 9 + text.utf8ByteSize
  | call _ => 6
  | guarded _ => 23

/-- The code at a position, where `start` says at which positions subroutines begin. -/
def code (start : Nat → Nat) (position : Nat) : Passage → List Instruction
  | print text => [.constant (.string text), .callAction 1 1]
  | call callee => [.jump .call (start callee - position)]
  | guarded callee => Structured.test 12 ++ [.jump .call (start callee - (position + 17 : Nat))]

theorem codeSize_code (start : Nat → Nat) (position : Nat) (passage : Passage) :
    codeSize (passage.code start position) = passage.size := by
  cases passage with
  | print text =>
      simp only [code, size, codeSize_cons, codeSize_nil, Instruction.size, Instruction.constant,
        Instruction.callAction]
      omega
  | call callee => rfl
  | guarded callee => rfl

/-- A passage that calls a subroutine jumps to where it begins. -/
theorem exists_jump {passage : Passage} {callee : Nat} (calls : passage.callee? = some callee)
    (start : Nat → Nat) (position : Nat) :
    ∃ offset, (passage.code start position)[offset]? = some (Instruction.jump .call
      (start callee - (position + codeSize ((passage.code start position).take offset) : Nat))) := by
  cases passage with
  | print text => cases calls
  | call other =>
      cases calls
      exact ⟨0, rfl⟩
  | guarded other =>
      cases calls
      exact ⟨3, rfl⟩

/-- Bytes of the code of passages in order. -/
def sizes (passages : List Passage) : Nat :=
  (passages.map size).sum

/-- The code of passages in order. -/
def codes (start : Nat → Nat) (position : Nat) : List Passage → List Instruction
  | [] => []
  | passage :: rest => passage.code start position ++ codes start (position + passage.size) rest

theorem codes_append (start : Nat → Nat) (position : Nat) (first second : List Passage) :
    codes start position (first ++ second) =
      codes start position first ++ codes start (position + sizes first) second := by
  induction first generalizing position with
  | nil => rfl
  | cons passage first induction =>
      rw [List.cons_append, codes, codes, induction, List.append_assoc, Nat.add_assoc]
      rfl

theorem codeSize_codes (start : Nat → Nat) (position : Nat) (passages : List Passage) :
    codeSize (codes start position passages) = sizes passages := by
  induction passages generalizing position with
  | nil => rfl
  | cons passage rest induction =>
      rw [codes, codeSize_append, codeSize_code, induction]
      rfl

/-- Number of instructions. -/
def length : Passage → Nat
  | print _ => 2
  | call _ => 1
  | guarded _ => 4

/-- Number of instructions of passages in order. -/
def lengths (passages : List Passage) : Nat :=
  (passages.map length).sum

theorem lengths_append_singleton (passages : List Passage) (passage : Passage) :
    lengths (passages ++ [passage]) = lengths passages + passage.length := by
  simp [lengths]

theorem length_codes (start : Nat → Nat) (position : Nat) (passages : List Passage) :
    (codes start position passages).length = lengths passages := by
  induction passages generalizing position with
  | nil => rfl
  | cons passage rest induction =>
      have head : (passage.code start position).length = passage.length := by cases passage <;> rfl
      rw [codes, List.length_append, induction, head]
      rfl

/-- A subroutine that returns behind its passages. -/
def routine (start : Nat → Nat) (position : Nat) (passages : List Passage) : List Instruction :=
  codes start position passages ++ [.simple .ret .void]

theorem codeSize_routine (start : Nat → Nat) (position : Nat) (passages : List Passage) :
    codeSize (routine start position passages) = sizes passages + 2 := by
  rw [routine, codeSize_append, codeSize_codes]
  rfl

/-- One of some subroutines calls another. -/
def Calls (routines : List (List Passage)) (sub callee : Nat) : Prop :=
  ∃ passages, routines[sub]? = some passages ∧ ∃ passage ∈ passages, passage.callee? = some callee

/-- Consecutive subroutines of which the first begins at a position. -/
def bodiesFrom (start : Nat → Nat) (position : Nat) : List (List Passage) → List (List Placed)
  | [] => []
  | passages :: rest =>
      placedFrom position (routine start position passages) ::
        bodiesFrom start (position + (sizes passages + 2)) rest

/-- Where a subroutine begins. -/
def startOf (routines : List (List Passage)) (sub : Nat) : Nat :=
  Instruction.headerSize + ((routines.take sub).map fun passages => sizes passages + 2).sum

theorem length_bodiesFrom (start : Nat → Nat) (position : Nat) (routines : List (List Passage)) :
    (bodiesFrom start position routines).length = routines.length := by
  induction routines generalizing position with
  | nil => rfl
  | cons passages routines induction => rw [bodiesFrom, List.length_cons, induction, List.length_cons]

theorem getElem?_bodiesFrom {routines : List (List Passage)} {sub : Nat} {passages : List Passage}
    (found : routines[sub]? = some passages) (start : Nat → Nat) (position : Nat) :
    ∃ here, here = position + ((routines.take sub).map fun passages => sizes passages + 2).sum ∧
      (bodiesFrom start position routines)[sub]? =
        some (placedFrom here (routine start here passages)) := by
  induction routines generalizing sub position with
  | nil => cases found
  | cons head routines induction =>
      cases sub with
      | zero =>
          obtain rfl : head = passages := Option.some.inj found
          exact ⟨position, rfl, rfl⟩
      | succ sub =>
          obtain ⟨here, same, holder⟩ := induction found (position + (sizes head + 2))
          refine ⟨here, ?_, holder⟩
          rw [same, List.take_succ_cons, List.map_cons, List.sum_cons, Nat.add_assoc]

/-- Consecutive subroutines leave no gaps. -/
theorem exists_flatten_bodiesFrom (start : Nat → Nat) (position : Nat)
    (routines : List (List Passage)) :
    ∃ code, (bodiesFrom start position routines).flatten = placedFrom position code := by
  induction routines generalizing position with
  | nil => exact ⟨[], rfl⟩
  | cons passages routines induction =>
      obtain ⟨code, same⟩ := induction (position + (sizes passages + 2))
      refine ⟨routine start position passages ++ code, ?_⟩
      rw [bodiesFrom, List.flatten_cons, same, placedFrom_append, codeSize_routine]

end Passage

open Passage (Calls sizes codes routine bodiesFrom startOf)

namespace Program

/-- The program whose subroutines consist of some passages each. -/
def ofPassages (routines : List (List Passage)) : Program :=
  .ofNonempty (bodiesFrom (startOf routines) Instruction.headerSize routines) (by
    intro body listed empty
    obtain ⟨sub, inside, rfl⟩ := List.mem_iff_getElem.mp listed
    rw [Passage.length_bodiesFrom] at inside
    obtain ⟨here, -, holder⟩ := Passage.getElem?_bodiesFrom (List.getElem?_eq_getElem inside)
      (startOf routines) Instruction.headerSize
    rw [(List.getElem?_eq_some_iff.mp holder).2] at empty
    have length := congrArg List.length empty
    rw [length_placedFrom, routine, List.length_append] at length
    cases length)

/-- Code that stands somewhere in a subroutine and is followed by more of it. -/
structure Stretch (program : Program) (sub first position : Nat) (code : List Instruction) : Prop
    extends Spans program first position code where
  /-- The subroutine. -/
  owner : ∀ {place : Nat}, place ≤ code.length → program.owner (first + place) = sub

variable {program : Program} {sub first position place : Nat}

/-- The instruction at a place of a subroutine. -/
theorem standsAt_of_holder {code : List Instruction} {instruction : Instruction}
    (holder : program.bodies[sub]? = some (placedFrom position code))
    (here : code[place]? = some instruction) :
    StandsAt program (program.entry sub + place) sub place (placedFrom position code)
      ⟨position + codeSize (code.take place), instruction⟩ where
  holder := holder
  here := getElem?_placedFrom position here
  number := by rw [entry_eq (Nat.le_of_lt (List.getElem?_eq_some_iff.mp holder).1)]

theorem stretch_of_holder {before code rest : List Instruction}
    (holder : program.bodies[sub]? = some (placedFrom position (before ++ (code ++ rest))))
    (filled : rest ≠ []) :
    Stretch program sub (program.entry sub + before.length) (position + codeSize before) code := by
  have stands : ∀ place ≤ code.length, ∃ instruction,
      StandsAt program (program.entry sub + before.length + place) sub (before.length + place)
          (placedFrom position (before ++ (code ++ rest)))
          ⟨position + codeSize before + codeSize (code.take place), instruction⟩ ∧
        ∀ other, code[place]? = some other → instruction = other := by
    intro place bound
    have positive := List.length_pos_iff.mpr filled
    have inside : before.length + place < (before ++ (code ++ rest)).length := by
      simp only [List.length_append]
      omega
    have standing := standsAt_of_holder holder (List.getElem?_eq_getElem inside)
    refine ⟨(before ++ (code ++ rest))[before.length + place], ?_, fun other here => ?_⟩
    · have taken : codeSize ((before ++ (code ++ rest)).take (before.length + place)) =
          codeSize before + codeSize (code.take place) := by
        rw [List.take_length_add_append, codeSize_append, List.take_append_of_le_length bound]
      rw [taken, ← Nat.add_assoc, ← Nat.add_assoc] at standing
      exact standing
    · rw [List.getElem_append_right (Nat.le_add_right _ _)]
      simp only [Nat.add_sub_cancel_left]
      obtain ⟨within, same⟩ := List.getElem?_eq_some_iff.mp here
      rw [List.getElem_append_left within, same]
  refine { instruction := ?_, position := ?_, inside := ?_, owner := ?_ }
  · intro place instruction here
    obtain ⟨other, standing, same⟩ := stands place
      (Nat.le_of_lt (List.getElem?_eq_some_iff.mp here).1)
    rw [standing.instruction, same instruction here]
  · intro place bound
    obtain ⟨other, standing, -⟩ := stands place bound
    exact standing.position
  · obtain ⟨other, standing, -⟩ := stands code.length (Nat.le_refl _)
    exact standing.lt_commandCount
  · intro place bound
    obtain ⟨other, standing, -⟩ := stands place bound
    exact standing.owner

theorem Stretch.next? {code : List Instruction} (stretch : program.Stretch sub first position code)
    (inside : place < code.length) : program.next? (first + place) = some (first + place + 1) := by
  have bound := stretch.inside
  rw [Program.next?, stretch.owner (Nat.le_of_lt inside), Nat.add_assoc, stretch.owner inside]
  exact if_pos ⟨by omega, rfl⟩

/-- The subroutines of a program consist of some passages each, which call each other only. -/
structure IsMadeOf (program : Program) (routines : List (List Passage)) : Prop where
  /-- The subroutines lie one behind the other. -/
  bodies : program.bodies = bodiesFrom (startOf routines) Instruction.headerSize routines
  /-- A call has a callee. -/
  closed : ∀ sub callee, Calls routines sub callee → callee < routines.length

section MadeOf

variable {routines : List (List Passage)} (made : program.IsMadeOf routines)
  {passages before after : List Passage} {passage : Passage} {callee : Nat}

include made

theorem IsMadeOf.subroutineCount : program.subroutineCount = routines.length := by
  rw [subroutineCount_eq, made.bodies, Passage.length_bodiesFrom]

theorem IsMadeOf.increasing : Positions.Increasing program := by
  obtain ⟨code, placed⟩ := Passage.exists_flatten_bodiesFrom (startOf routines)
    Instruction.headerSize routines
  exact increasing_of_placedFrom (made.bodies ▸ placed)

theorem IsMadeOf.holder (found : routines[sub]? = some passages) :
    program.bodies[sub]? = some (placedFrom (startOf routines sub)
      (routine (startOf routines) (startOf routines sub) passages)) := by
  obtain ⟨here, same, holder⟩ := Passage.getElem?_bodiesFrom found (startOf routines)
    Instruction.headerSize
  obtain rfl : here = startOf routines sub := same
  rw [made.bodies, holder]

/-- Where the code of a passage of a subroutine stands. -/
theorem IsMadeOf.stretch (found : routines[sub]? = some (before ++ passage :: after)) :
    Stretch program sub
      (program.entry sub + (codes (startOf routines) (startOf routines sub) before).length)
      (startOf routines sub + sizes before)
      (passage.code (startOf routines) (startOf routines sub + sizes before)) := by
  have holder := made.holder found
  rw [routine, Passage.codes_append, codes, List.append_assoc, List.append_assoc] at holder
  rw [← Passage.codeSize_codes (startOf routines) (startOf routines sub) before] at holder ⊢
  exact stretch_of_holder holder (by simp)

/-- The first instruction of a subroutine. -/
theorem IsMadeOf.standsAt_entry (inside : sub < routines.length) : ∃ body instruction,
    StandsAt program (program.entry sub) sub 0 body ⟨startOf routines sub, instruction⟩ := by
  have holder := made.holder (List.getElem?_eq_getElem inside)
  have filled : 0 < (routine (startOf routines) (startOf routines sub) routines[sub]).length := by
    rw [routine, List.length_append]
    exact Nat.add_pos_right _ Nat.one_pos
  exact ⟨_, _, standsAt_of_holder holder (List.getElem?_eq_getElem filled)⟩

theorem IsMadeOf.position_entry (inside : sub < routines.length) :
    program.position (program.entry sub) = startOf routines sub := by
  obtain ⟨body, instruction, stands⟩ := made.standsAt_entry inside
  exact stands.position

/-- A return stands behind the passages. -/
theorem IsMadeOf.standsAt_last (found : routines[sub]? = some passages) :
    ∃ position, StandsAt program
      (program.entry sub + (codes (startOf routines) (startOf routines sub) passages).length) sub
      (codes (startOf routines) (startOf routines sub) passages).length
      (placedFrom (startOf routines sub)
        (routine (startOf routines) (startOf routines sub) passages))
      ⟨position, .simple .ret .void⟩ := by
  have last : (routine (startOf routines) (startOf routines sub) passages)[
      (codes (startOf routines) (startOf routines sub) passages).length]? =
        some (.simple .ret .void) := by
    rw [routine, List.getElem?_append_right (Nat.le_refl _), Nat.sub_self]
    rfl
  exact ⟨_, standsAt_of_holder (made.holder found) last⟩

/-- A call leads to the first instruction of its callee. -/
theorem IsMadeOf.destination?_call {command position : Nat} (inside : callee < routines.length)
    (here : program.instruction command = .jump .call (startOf routines callee - position))
    (placed : program.position command = position) :
    Jumps.destination? program command = some (program.entry callee) := by
  refine destination?_eq_some made.increasing rfl here
    (entry_lt (made.subroutineCount.symm ▸ inside)) ?_
  rw [placed, made.position_entry inside]
  omega

/-- A test leads behind the call that it guards. -/
theorem IsMadeOf.destination?_test (stretch : Stretch program sub first position
      (Passage.code (startOf routines) position (.guarded callee))) :
    Jumps.destination? program (first + 2) = some (first + 4) := by
  have here : program.instruction (first + 2) = .jump .jumpZero 12 := stretch.instruction rfl
  have source : program.position (first + 2) = position + 11 := stretch.position (show 2 ≤ 4 by omega)
  have behind : program.position (first + 4) = position + 23 := stretch.position (show 4 ≤ 4 by omega)
  refine destination?_eq_some made.increasing rfl here stretch.inside ?_
  rw [source, behind]
  omega

end MadeOf

/-- An instruction of a program whose subroutines consist of some passages each. -/
inductive IsOrdinary (program : Program) (routines : List (List Passage)) (command : Nat) : Prop
  /-- A value is pushed or an action is called. -/
  | plain (here : program.opcode command = .const ∨ program.opcode command = .action)
      (behind : program.next? command = some (command + 1))
  /-- A test. -/
  | test (here : program.opcode command = .jumpZero)
      (behind : program.next? command = some (command + 1))
      (leads : Jumps.destination? program command = some (command + 2))
  /-- A call. -/
  | call {callee : Nat} (here : program.opcode command = .call)
      (behind : program.next? command = some (command + 1))
      (calls : Calls routines (program.owner command) callee)
      (leads : Jumps.destination? program command = some (program.entry callee))
  /-- A return. -/
  | ret (here : program.opcode command = .ret) (last : program.next? command = none)

section Ordinary

variable {routines : List (List Passage)} (made : program.IsMadeOf routines) {command callee : Nat}

theorem IsOrdinary.opcode (ordinary : IsOrdinary program routines command) :
    program.opcode command ∈ [Opcode.const, .action, .jumpZero, .call, .ret] := by
  rcases ordinary with ⟨here | here, -⟩ | ⟨here, -, -⟩ | ⟨here, -, -, -⟩ | ⟨here, -⟩ <;>
    rw [here] <;> decide

/-- An instruction of a subroutine that is not its return belongs to one of the passages. -/
theorem exists_passage_of_lt {start : Nat → Nat} {position : Nat} {passages : List Passage}
    (inside : place < (codes start position passages).length) :
    ∃ before passage after offset, passages = before ++ passage :: after ∧
      place = (codes start position before).length + offset ∧
      offset < (passage.code start (position + sizes before)).length := by
  induction passages generalizing position place with
  | nil => exact absurd inside (Nat.not_lt_zero _)
  | cons head passages induction =>
      rw [codes, List.length_append] at inside
      by_cases first : place < (head.code start position).length
      · exact ⟨[], head, passages, place, rfl, (Nat.zero_add _).symm, first⟩
      · have further : place - (head.code start position).length <
            (codes start (position + head.size) passages).length := by omega
        obtain ⟨before, passage, after, offset, rfl, place_eq, bound⟩ := induction further
        refine ⟨head :: before, passage, after, offset, rfl, ?_, ?_⟩
        · rw [codes, List.length_append]
          omega
        · rw [Nat.add_assoc] at bound
          exact bound

include made

/-- The instructions of a passage are ordinary. -/
theorem IsMadeOf.isOrdinary_passage {passage : Passage} {offset : Nat}
    (stretch : Stretch program sub first position (passage.code (startOf routines) position))
    (listed : ∀ callee, passage.callee? = some callee → Calls routines sub callee)
    (inside : offset < (passage.code (startOf routines) position).length) :
    IsOrdinary program routines (first + offset) := by
  have behind := stretch.next? inside
  have owned := stretch.owner (Nat.le_of_lt inside)
  have known : ∀ {instruction : Instruction},
      (passage.code (startOf routines) position)[offset]? = some instruction →
        program.opcode (first + offset) = instruction.opcode :=
    fun here => congrArg Instruction.opcode (stretch.instruction here)
  have leads : ∀ {callee : Nat} (distance : Nat), passage.callee? = some callee →
      (passage.code (startOf routines) position)[offset]? =
        some (.jump .call (startOf routines callee - (position + distance : Nat))) →
      codeSize ((passage.code (startOf routines) position).take offset) = distance →
        IsOrdinary program routines (first + offset) := by
    intro callee distance calls here size
    have bound := made.closed sub callee (listed callee calls)
    refine .call (known here) behind (owned.symm ▸ listed callee calls)
      (made.destination?_call bound (stretch.instruction here) ?_)
    rw [stretch.position (Nat.le_of_lt inside), size]
  cases passage with
  | print text =>
      rcases offset with _ | _ | offset
      · exact .plain (.inl (known rfl)) behind
      · exact .plain (.inr (known rfl)) behind
      · exact absurd inside (by simp [Passage.code])
  | call callee =>
      rcases offset with _ | offset
      · exact leads 0 rfl rfl rfl
      · exact absurd inside (by simp [Passage.code])
  | guarded callee =>
      rcases offset with _ | _ | _ | _ | offset
      · exact .plain (.inl (known rfl)) behind
      · exact .plain (.inr (known rfl)) behind
      · exact .test (known rfl) behind (made.destination?_test stretch)
      · exact leads 17 rfl rfl rfl
      · exact absurd inside (by simp [Passage.code, Structured.test])

theorem IsMadeOf.isOrdinary (inside : command < program.commandCount) :
    IsOrdinary program routines command := by
  obtain ⟨sub, place, body, placed, stands⟩ := exists_standsAt inside
  have counted : sub < routines.length := by
    rw [← made.subroutineCount, subroutineCount_eq]
    exact (List.getElem?_eq_some_iff.mp stands.holder).1
  have found := List.getElem?_eq_getElem counted
  have number : command = program.entry sub + place := by
    rw [stands.number, entry_eq (Nat.le_of_lt (List.getElem?_eq_some_iff.mp stands.holder).1)]
  have bound := (List.getElem?_eq_some_iff.mp stands.here).1
  obtain rfl := Option.some.inj ((made.holder found).symm.trans stands.holder)
  rw [length_placedFrom, routine, List.length_append, List.length_singleton] at bound
  rcases Nat.lt_succ_iff_lt_or_eq.mp bound with before_last | last
  · obtain ⟨before, passage, after, offset, split, place_eq, here⟩ :=
      exists_passage_of_lt before_last
    rw [split] at found
    rw [number, place_eq, ← Nat.add_assoc]
    exact made.isOrdinary_passage (made.stretch found)
      (fun callee calls => ⟨_, found, passage, by simp, calls⟩) here
  · obtain ⟨position, standing⟩ := made.standsAt_last found
    rw [← last, ← number] at standing
    refine .ret (congrArg Instruction.opcode standing.instruction) ?_
    rw [next?, if_neg]
    rintro ⟨further, owned⟩
    rw [standing.owner] at owned
    have below := ((owner_eq_iff further).mp owned).2
    rw [offset_succ stands.holder, length_placedFrom, routine, List.length_append,
      List.length_singleton, ← last, stands.number] at below
    omega

theorem IsMadeOf.allLand : Jumps.AllLand program := by
  refine Program.allLand fun command inside jumps => ?_
  rcases made.isOrdinary inside with ⟨here | here, -⟩ | ⟨-, -, leads⟩ | ⟨-, -, -, leads⟩ | ⟨here, -⟩
  · rw [here] at jumps
    cases jumps
  · rw [here] at jumps
    cases jumps
  · exact ⟨_, leads⟩
  · exact ⟨_, leads⟩
  · rw [here] at jumps
    cases jumps

/-- No jump skips the operand of a logical operator. -/
theorem IsMadeOf.skipsOperand_eq_false (inside : command < program.commandCount) :
    Liveness.skipsOperand program command = false := by
  have copies : Liveness.followsTopCopy program command = false := by
    rw [Liveness.followsTopCopy]
    cases found : program.previous? command with
    | none => rfl
    | some previous =>
        have bound := (Program.previous?_lt found).trans inside
        have other : program.opcode previous ≠ .copyTop := by
          intro copies
          have listed := (made.isOrdinary bound).opcode
          rw [copies] at listed
          exact absurd listed (by decide)
        simp [other]
  rw [Liveness.skipsOperand, copies]
  simp

/-- A subroutine is reached as a whole. -/
theorem IsMadeOf.isReachable_of_entry (inside : command < program.commandCount)
    (begins : IsReachable program (.resolved program) (program.entry (program.owner command))) :
    IsReachable program (.resolved program) command := by
  obtain ⟨sub, owned⟩ : ∃ sub, program.owner command = sub := ⟨_, rfl⟩
  rw [owned] at begins
  have counted : sub < program.bodies.length := by
    rw [← subroutineCount_eq, ← owned]
    exact owner_lt inside
  obtain ⟨low, high⟩ := (owner_eq_iff inside).mp owned
  rw [entry_eq (Nat.le_of_lt counted)] at begins
  obtain ⟨more, rfl⟩ := Nat.exists_eq_add_of_le low
  induction more with
  | zero => exact begins
  | succ more induction =>
      have bound : offset program.bodies sub + more < program.commandCount := by omega
      have here : program.owner (offset program.bodies sub + more) = sub :=
        (owner_eq_iff bound).mpr ⟨by omega, by omega⟩
      have reached := induction bound here (by omega) (by omega)
      have behind : program.next? (offset program.bodies sub + more) =
          some (offset program.bodies sub + (more + 1)) := by
        rw [next?, here, Nat.add_assoc, if_pos ⟨inside, owned⟩]
      refine ⟨reached.1, reached.2.tail (.next behind ?_ ?_)⟩
      · intro returns
        rcases made.isOrdinary bound with ⟨here | here, -⟩ | ⟨here, -, -⟩ | ⟨here, -, -, -⟩ | ⟨-, last⟩
        case ret =>
          rw [last] at behind
          cases behind
        all_goals
          rw [here] at returns
          cases returns
      · intro jumps
        have listed := (made.isOrdinary bound).opcode
        rw [jumps] at listed
        exact absurd listed (by decide)

/-- A call of a subroutine is an instruction that leads there. -/
theorem IsMadeOf.exists_call (called : Calls routines sub callee) :
    ∃ command < program.commandCount, program.owner command = sub ∧
      program.opcode command = .call ∧
        Jumps.destination? program command = some (program.entry callee) := by
  have bound := made.closed sub callee called
  obtain ⟨passages, found, passage, listed, calls⟩ := called
  obtain ⟨before, after, rfl⟩ := List.append_of_mem listed
  have stretch := made.stretch found
  obtain ⟨offset, here⟩ := Passage.exists_jump calls (startOf routines)
    (startOf routines sub + sizes before)
  have within := (List.getElem?_eq_some_iff.mp here).1
  have further := stretch.inside
  refine ⟨_, by omega, stretch.owner (Nat.le_of_lt within),
    congrArg Instruction.opcode (stretch.instruction here),
    made.destination?_call bound (stretch.instruction here) ?_⟩
  exact stretch.position (Nat.le_of_lt within)

/-- Everything is reached if the first subroutine calls all the others. -/
theorem IsMadeOf.isReachable
    (called : ∀ callee < routines.length, callee ≠ 0 → Calls routines 0 callee)
    (inside : command < program.commandCount) : IsReachable program (.resolved program) command := by
  have owned := owner_lt inside
  have counted : 0 < program.subroutineCount := Nat.zero_lt_of_lt owned
  have begins : IsReachable program (.resolved program) (program.entry 0) := ⟨counted, .refl⟩
  refine made.isReachable_of_entry inside ?_
  by_cases first : program.owner command = 0
  · rw [first]
    exact begins
  · obtain ⟨source, bound, holder, opcode, leads⟩ :=
      made.exists_call (called _ (made.subroutineCount ▸ owned) first)
    have reached := made.isReachable_of_entry bound (holder.symm ▸ begins)
    refine ⟨counted, reached.2.tail (.jump ?_ ?_)⟩
    · rw [opcode]
      rfl
    · rw [FlowTable.destination_resolved bound, leads]

/-- The calls of passages are live. -/
theorem IsMadeOf.liveCall {table : FlowTable} (live : FlowTable.AllLive program table)
    (inside : command < program.commandCount) (bound : callee < routines.length)
    (here : program.opcode command = .call)
    (leads : Jumps.destination? program command = some (program.entry callee)) :
    FlowTable.LiveCall program table command callee where
  inside := inside
  calls := here
  live := live.alive command inside
  counted := made.subroutineCount.symm ▸ bound
  enters := (live.destination command inside).trans (congrArg _ leads)

/-- Only what a passage calls is called. -/
theorem IsMadeOf.calls_of_liveCall {table : FlowTable} (live : FlowTable.AllLive program table)
    (call : FlowTable.LiveCall program table command callee) :
    Calls routines (program.owner command) callee := by
  rcases made.isOrdinary call.inside with
    ⟨other | other, -⟩ | ⟨other, -, -⟩ | ⟨-, -, calls, leads⟩ | ⟨other, -⟩
  case call target =>
    have bound := made.subroutineCount.symm ▸ made.closed _ _ calls
    have entered : some (program.entry target) = some (program.entry callee) := by
      rw [← leads, ← Except.ok.injEq, ← live.destination command call.inside, call.enters]
    have same : target = callee := by
      rw [← owner_entry bound, Option.some.inj entered, owner_entry call.counted]
    exact same ▸ calls
  all_goals cases call.calls.symm.trans other

/-- The edges of the call graph are the calls of the passages. -/
theorem IsMadeOf.edge_iff_calls {table : FlowTable} {calls : CallGraph}
    (live : FlowTable.AllLive program table) (built : CallGraph.build program table = .ok calls) :
    calls.graph.Edge sub callee ↔ Calls routines sub callee := by
  rw [CallGraph.edge_iff built]
  constructor
  · rintro ⟨command, rfl, call⟩
    exact made.calls_of_liveCall live call
  · intro called
    obtain ⟨command, inside, owned, here, leads⟩ := made.exists_call called
    exact ⟨command, owned, made.liveCall live inside (made.closed _ _ called) here leads⟩

end Ordinary

end Program
end NwScript
