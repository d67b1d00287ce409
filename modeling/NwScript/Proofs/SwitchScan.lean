import Mathlib.Algebra.Order.BigOperators.Group.List
import Mathlib.Data.Finset.Card
import Mathlib.Dynamics.PeriodicPts.Defs
import Mathlib.Tactic.Ring
import NwScript.Proofs.SingleRoutine
import NwScript.SourceProgram

/-!
# The scan for the end of a switch

The scan goes from an instruction to the next one, except at the jump around a deferred argument, whose
destination it follows.  Where these jumps lead forward it meets each instruction at most once.  Nothing
makes them lead forward, and around one that leads backward the scan may run forever.  It does if it has
not ended by its bound: from then on it meets the instructions of a circle again and again, and in each
turn the height at an instruction either comes out the same or moves on by the same amount.
-/

namespace NwScript
namespace RecoveryInput

variable {input : RecoveryInput} {starts : List Nat}

/-! ## The loop of a scan -/

/-- The loop of a scan, cut off after some instructions: those that it visited, and what it gave if it
has ended by then. -/
def scanned (input : RecoveryInput) (starts : List Nat) :
    (count : Nat) → SwitchScan → List Nat × Option (Except Fault (Option Nat))
  | 0, _ => ([], none)
  | count + 1, scan =>
      match input.scanStep starts scan with
      | .error fault => (scan.cursor.toList, some (.error fault))
      | .ok (.found pop) => (scan.cursor.toList, some (.ok pop))
      | .ok (.more next) =>
          let (later, ended) := scanned input starts count next
          (scan.cursor.toList ++ later, ended)

/-- Where the scan behind a dispatch begins. -/
def scanStart (input : RecoveryInput) (jump : Nat) : SwitchScan :=
  { cursor := input.program.next? jump }

theorem scanFrom_eq (count : Nat) (scan : SwitchScan) :
    input.scanFrom starts count scan =
      (input.scanned starts count scan).2.getD (.error .endlessScan) := by
  induction count generalizing scan with
  | zero => rfl
  | succ count induction =>
      rw [scanFrom, scanned]
      cases input.scanStep starts scan with
      | error fault => rfl
      | ok step =>
          cases step with
          | found pop => rfl
          | more next => exact induction next

/-- Once the loop has ended, more instructions make no difference. -/
theorem scanned_add {count : Nat} {scan : SwitchScan}
    (ended : (input.scanned starts count scan).2.isSome) (extra : Nat) :
    input.scanned starts (count + extra) scan = input.scanned starts count scan := by
  induction count generalizing scan with
  | zero => cases ended
  | succ count induction =>
      rw [Nat.add_right_comm]
      rw [scanned] at ended ⊢
      rw [scanned]
      generalize input.scanStep starts scan = step at ended ⊢
      rcases step with fault | pop | next
      · rfl
      · rfl
      · dsimp only at ended ⊢
        rw [induction ended]

/-! ## One step -/

/-- The scan follows the jump around a deferred argument. -/
def Follows (input : RecoveryInput) (command : Nat) : Prop :=
  input.table.isDead command = .ok false ∧ input.program.opcode command = .jump ∧
    input.skipsClosure command = true

instance (command : Nat) : Decidable (input.Follows command) :=
  inferInstanceAs (Decidable (_ ∧ _ ∧ _))

/-- The instruction that a scan looks at after another one, whatever the height. -/
def scanNext (input : RecoveryInput) (command : Nat) : Option Nat :=
  if input.Follows command then (input.table.destination command).toOption.join
  else input.program.next? command

/-- The height with which a scan looks at an instruction that is executed. -/
def scanLevel (input : RecoveryInput) (starts : List Nat) (command : Nat) (height : Int) : Int :=
  if input.program.position command ∈ starts then 0 else height

/-- How far a scan moves the height at an instruction that is executed. -/
def scanChange (input : RecoveryInput) (command : Nat) : Int :=
  if input.Follows command then 0 else input.heightChange command

/-- The height behind an instruction. -/
def scanHeight (input : RecoveryInput) (starts : List Nat) (command : Nat) (height : Int) : Int :=
  if input.table.isDead command = .ok false then
    input.scanLevel starts command height + input.scanChange command
  else
    height

/-- A scan does not end at an instruction. -/
def GoesOn (input : RecoveryInput) (starts : List Nat) : Option Nat × Int → Prop
  | (none, _) => False
  | (some command, height) =>
      input.table.isDead command = .ok true ∨
        input.table.isDead command = .ok false ∧
          (input.program.opcode command = .moveStack → input.scanLevel starts command height = 0 →
            input.leadsToReturn command = .ok true) ∧
          (input.Follows command → ∃ destination, input.table.destination command = .ok destination)

/-- Where a scan is after an instruction. -/
def scanTurn (input : RecoveryInput) (starts : List Nat) : Option Nat × Int → Option Nat × Int
  | (none, height) => (none, height)
  | (some command, height) => (input.scanNext command, input.scanHeight starts command height)

/-- A scan that goes on takes its turn; only the candidate depends on more. -/
theorem scanStep_of_goesOn {cursor : Option Nat} {height : Int} (candidate : Option Nat)
    (goes : input.GoesOn starts (cursor, height)) :
    ∃ candidate', input.scanStep starts ⟨cursor, height, candidate⟩ =
      .ok (.more ⟨(input.scanTurn starts (cursor, height)).1,
        (input.scanTurn starts (cursor, height)).2, candidate'⟩) := by
  cases cursor with
  | none => exact goes.elim
  | some command =>
      rcases goes with dead | ⟨alive, popping, following⟩
      · exact ⟨candidate, by simp [scanStep, dead, scanTurn, scanNext, scanHeight, Follows]; rfl⟩
      · have level : (if input.program.position command ∈ starts then 0 else height) =
            input.scanLevel starts command height := rfl
        simp only [scanStep, alive, bind, Except.bind, Bool.false_eq_true, if_false, level]
        by_cases follows : input.Follows command
        · obtain ⟨destination, leads⟩ := following follows
          refine ⟨candidate, ?_⟩
          simp only [follows.2.1, follows.2.2, if_true, leads]
          simp [scanTurn, scanNext, scanHeight, scanChange, alive, follows, leads, Except.toOption]
          rfl
        · have turn : input.scanTurn starts (some command, height) =
              (input.program.next? command,
                input.scanLevel starts command height + input.heightChange command) := by
            simp [scanTurn, scanNext, scanHeight, scanChange, alive, follows]
          rw [turn]
          split
          · rename_i opcode
            by_cases base : input.scanLevel starts command height = 0
            · exact ⟨some command, by simp [base, popping opcode base, SwitchScan.advance]; rfl⟩
            · exact ⟨candidate, by simp [base, SwitchScan.advance]; rfl⟩
          · rename_i opcode
            have plain : input.skipsClosure command = false := by
              rw [← Bool.not_eq_true]
              exact fun skips => follows ⟨alive, opcode, skips⟩
            exact ⟨candidate, by simp [plain, SwitchScan.advance]; rfl⟩
          · exact ⟨candidate, by simp [SwitchScan.advance]; rfl⟩

/-- A scan that takes another step goes on. -/
theorem goesOn_of_scanStep {scan next : SwitchScan}
    (stepped : input.scanStep starts scan = .ok (.more next)) :
    input.GoesOn starts (scan.cursor, scan.height) := by
  obtain ⟨_ | command, height, candidate⟩ := scan
  · cases stepped
  · have level : (if input.program.position command ∈ starts then 0 else height) =
        input.scanLevel starts command height := rfl
    cases dead : input.table.isDead command with
    | error fault =>
        simp only [scanStep, dead, bind, Except.bind] at stepped
        cases stepped
    | ok dead? =>
        cases dead? with
        | true => exact .inl dead
        | false =>
            refine .inr ⟨dead, fun opcode base => ?_, fun follows => ?_⟩
            · simp only [scanStep, dead, bind, Except.bind, Bool.false_eq_true, if_false, level,
                opcode, base, ne_eq, not_true_eq_false] at stepped
              cases returning : input.leadsToReturn command with
              | error fault =>
                  rw [returning] at stepped
                  cases stepped
              | ok returns =>
                  cases returns with
                  | true => rfl
                  | false =>
                      rw [returning] at stepped
                      cases stepped
            · simp only [scanStep, dead, bind, Except.bind, Bool.false_eq_true, if_false,
                follows.2.1, follows.2.2, if_true] at stepped
              cases leads : input.table.destination command with
              | error fault =>
                  rw [leads] at stepped
                  cases stepped
              | ok destination => exact ⟨destination, rfl⟩

/-- A scan that has not ended yet has gone on at each of its instructions. -/
theorem scanned_eq_none_iff (count : Nat) (scan : SwitchScan) :
    (input.scanned starts count scan).2 = none ↔
      ∀ turn < count,
        input.GoesOn starts ((input.scanTurn starts)^[turn] (scan.cursor, scan.height)) := by
  induction count generalizing scan with
  | zero => simp [scanned]
  | succ count induction =>
      rw [scanned]
      by_cases goes : input.GoesOn starts (scan.cursor, scan.height)
      · obtain ⟨candidate, stepped⟩ := scanStep_of_goesOn scan.candidate goes
        have same : scan = ⟨scan.cursor, scan.height, scan.candidate⟩ := rfl
        rw [same, stepped]
        dsimp only
        rw [induction]
        refine ⟨fun later turn within => ?_, fun all turn within => all (turn + 1) (by omega)⟩
        cases turn with
        | zero => exact goes
        | succ turn => exact later turn (by omega)
      · refine ⟨fun ended => ?_, fun all => absurd (all 0 (Nat.succ_pos _)) goes⟩
        split at ended
        · cases ended
        · cases ended
        · rename_i stepped
          exact absurd (goesOn_of_scanStep stepped) goes

/-! ## Running in a circle -/

/-- The order in which a scan looks at the instructions does not depend on the height. -/
theorem scanTurn_iterate_fst (count : Nat) (cursor : Option Nat) (height : Int) :
    ((input.scanTurn starts)^[count] (cursor, height)).1 = (·.bind input.scanNext)^[count] cursor := by
  induction count generalizing cursor height with
  | zero => rfl
  | succ count induction =>
      rw [Function.iterate_succ_apply, Function.iterate_succ_apply]
      cases cursor <;> exact induction _ _

theorem natAbs_heightChange_le (input : RecoveryInput) (command : Nat) :
    (input.heightChange command).natAbs ≤ input.heightChanges := by
  by_cases inside : command < input.program.commandCount
  · have listed : (input.heightChange command).natAbs ∈ input.program.commandNumbers.map
        fun command => (input.heightChange command).natAbs :=
      List.mem_map.mpr ⟨command, List.mem_range.mpr inside, rfl⟩
    exact List.le_sum_of_mem listed
  · have outside : input.program.instruction command = .simple .nop .void := by
      have absent : input.program.command? command = none :=
        Array.getElem?_eq_none (Nat.not_lt.mp inside)
      simp [Program.instruction, absent]
    simp [heightChange, outside, Instruction.simple, Instruction.stackEffect?, StackEffect.net,
      Opcode.isBinary, Opcode.isUnary, Opcode.isComparison]

theorem natAbs_scanChange_le (input : RecoveryInput) (command : Nat) :
    (input.scanChange command).natAbs ≤ input.heightChanges := by
  unfold scanChange
  split
  · exact Nat.zero_le _
  · exact input.natAbs_heightChange_le command

/-- Some turns of a scan leave a height that does not depend on the one before, or move the one before
by an amount that does not depend on it. -/
theorem scanTurn_iterate_snd (input : RecoveryInput) (starts : List Nat) (count : Nat)
    (cursor : Option Nat) :
    ∃ amount : Int, amount.natAbs ≤ count * input.heightChanges ∧
      ((∀ height, ((input.scanTurn starts)^[count] (cursor, height)).2 = amount) ∨
        ∀ height, ((input.scanTurn starts)^[count] (cursor, height)).2 = height + amount) := by
  induction count generalizing cursor with
  | zero => exact ⟨0, Nat.zero_le _, .inr fun height => (Int.add_zero height).symm⟩
  | succ count induction =>
      simp only [Function.iterate_succ_apply]
      cases cursor with
      | none =>
          obtain ⟨amount, small, moved⟩ := induction none
          exact ⟨amount, small.trans (Nat.mul_le_mul_right _ (Nat.le_succ _)), moved⟩
      | some command =>
          obtain ⟨amount, small, moved⟩ := induction (input.scanNext command)
          rcases moved with same | moved
          · exact ⟨amount, small.trans (Nat.mul_le_mul_right _ (Nat.le_succ _)),
              .inl fun height => same _⟩
          · have change := input.natAbs_scanChange_le command
            have wider : (count + 1) * input.heightChanges =
                count * input.heightChanges + input.heightChanges := Nat.succ_mul _ _
            by_cases alive : input.table.isDead command = .ok false
            · refine ⟨input.scanChange command + amount, by omega, ?_⟩
              by_cases start : input.program.position command ∈ starts
              · refine .inl fun height => (moved _).trans ?_
                simp [scanHeight, alive, scanLevel, start]
              · refine .inr fun height => (moved _).trans ?_
                simp only [scanHeight, alive, scanLevel, start, if_true, if_false]
                omega
            · refine ⟨amount, by omega, .inr fun height => (moved _).trans ?_⟩
              simp only [scanHeight, alive, if_false]

/-- At an instruction where a scan has gone on, it goes on again unless it comes by at the height of the
subject. -/
theorem GoesOn.of_ne_zero {cursor : Option Nat} {height other : Int}
    (goes : input.GoesOn starts (cursor, height)) (above : other ≠ 0) :
    input.GoesOn starts (cursor, other) := by
  cases cursor with
  | none => exact goes
  | some command =>
      rcases goes with dead | ⟨alive, popping, following⟩
      · exact .inl dead
      · refine .inr ⟨alive, fun opcode base => popping opcode ?_, following⟩
        unfold scanLevel at base ⊢
        split at base
        · rw [if_pos ‹_›]
        · exact absurd base above

/-- Behind the program there is nothing to scan. -/
theorem scanNext_eq_none {command : Nat} (outside : input.program.commandCount ≤ command) :
    input.scanNext command = none := by
  have absent : input.program.command? command = none := Array.getElem?_eq_none outside
  have plain : ¬input.Follows command := by
    rintro ⟨-, opcode, -⟩
    simp [Program.opcode, Program.instruction, absent, Instruction.simple] at opcode
  rw [scanNext, if_neg plain, Program.next?, if_neg (fun inside => by omega)]

/-- As long as a scan goes on it looks at instructions of the program. -/
theorem exists_lt_of_goesOn {cursor : Option Nat} {turn : Nat}
    (goes : input.GoesOn starts ((input.scanTurn starts)^[turn] (cursor, 0)))
    (again : input.GoesOn starts ((input.scanTurn starts)^[turn + 1] (cursor, 0))) :
    ∃ command < input.program.commandCount, (·.bind input.scanNext)^[turn] cursor = some command := by
  rw [Function.iterate_succ_apply'] at again
  rw [← @scanTurn_iterate_fst input starts turn cursor 0]
  generalize (input.scanTurn starts)^[turn] (cursor, 0) = point at goes again
  obtain ⟨_ | command, height⟩ := point
  · exact goes.elim
  · refine ⟨command, Nat.not_le.mp fun outside => ?_, rfl⟩
    rw [scanTurn, scanNext_eq_none outside] at again
    exact again

/-- Among as many instructions as the program has, and one, some instruction comes up twice. -/
theorem exists_circle {cursor : Option Nat}
    (goes : ∀ turn ≤ input.program.commandCount + 1,
      input.GoesOn starts ((input.scanTurn starts)^[turn] (cursor, 0))) :
    ∃ first period, 0 < period ∧ first + period ≤ input.program.commandCount ∧
      (·.bind input.scanNext)^[period] ((·.bind input.scanNext)^[first] cursor) =
        (·.bind input.scanNext)^[first] cursor := by
  have inside : ∀ turn ≤ input.program.commandCount,
      ((·.bind input.scanNext)^[turn] cursor).getD 0 < input.program.commandCount ∧
        (·.bind input.scanNext)^[turn] cursor =
          some (((·.bind input.scanNext)^[turn] cursor).getD 0) := by
    intro turn within
    obtain ⟨command, less, found⟩ :=
      exists_lt_of_goesOn (goes turn (by omega)) (goes (turn + 1) (by omega))
    rw [found]
    exact ⟨less, rfl⟩
  have same : ∀ first second, first < second → second ≤ input.program.commandCount →
      ((·.bind input.scanNext)^[first] cursor).getD 0 =
        ((·.bind input.scanNext)^[second] cursor).getD 0 →
      ∃ first period, 0 < period ∧ first + period ≤ input.program.commandCount ∧
        (·.bind input.scanNext)^[period] ((·.bind input.scanNext)^[first] cursor) =
          (·.bind input.scanNext)^[first] cursor := by
    intro first second less within equal
    refine ⟨first, second - first, by omega, by omega, ?_⟩
    rw [← Function.iterate_add_apply, Nat.sub_add_cancel less.le, (inside second within).2,
      (inside first (by omega)).2, equal]
  obtain ⟨first, one, second, other, differ, equal⟩ :=
    Finset.exists_ne_map_eq_of_card_lt_of_maps_to
      (s := Finset.range (input.program.commandCount + 1))
      (t := Finset.range input.program.commandCount)
      (f := fun turn => ((·.bind input.scanNext)^[turn] cursor).getD 0)
      (by simp) fun turn listed => Finset.mem_coe.mpr (Finset.mem_range.mpr
        (inside turn (Nat.le_of_lt_succ (Finset.mem_range.mp (Finset.mem_coe.mp listed)))).1)
  rw [Finset.mem_range] at one other
  rcases Nat.lt_or_gt_of_ne differ with less | less
  · exact same first second less (by omega) equal
  · exact same second first less (by omega) equal.symm

/-- In a circle each turn leaves the same height, or moves the height by the same amount. -/
theorem iterate_circle {cursor : Option Nat} {period : Nat} {height amount : Int}
    (circle : (·.bind input.scanNext)^[period] cursor = cursor) (turns : Nat) :
    ((∀ height, ((input.scanTurn starts)^[period] (cursor, height)).2 = amount) →
      (input.scanTurn starts)^[period * (turns + 1)] (cursor, height) =
        (input.scanTurn starts)^[period] (cursor, height)) ∧
    ((∀ height, ((input.scanTurn starts)^[period] (cursor, height)).2 = height + amount) →
      (input.scanTurn starts)^[period * turns] (cursor, height) =
        (cursor, height + turns * amount)) := by
  have first : ∀ height, ((input.scanTurn starts)^[period] (cursor, height)).1 = cursor :=
    fun height => (scanTurn_iterate_fst _ _ _).trans circle
  constructor
  · intro constant
    have once : ∀ height, (input.scanTurn starts)^[period] (cursor, height) = (cursor, amount) :=
      fun height => Prod.ext (first height) (constant height)
    induction turns with
    | zero => rw [Nat.zero_add, Nat.mul_one]
    | succ turns induction =>
        rw [Nat.mul_succ, Nat.add_comm, Function.iterate_add_apply, induction, once, once]
  · intro moved
    have once : ∀ height, (input.scanTurn starts)^[period] (cursor, height) =
        (cursor, height + amount) := fun height => Prod.ext (first height) (moved height)
    induction turns with
    | zero => simp
    | succ turns induction =>
        rw [Nat.mul_succ, Nat.add_comm, Function.iterate_add_apply, induction, once]
        push_cast
        rw [Int.add_mul, Int.one_mul, Int.add_assoc]

/-- A scan that goes on for longer than its bound runs in a circle and never ends. -/
theorem goesOn_of_scanBound {cursor : Option Nat}
    (goes : ∀ turn < input.scanBound, input.GoesOn starts ((input.scanTurn starts)^[turn] (cursor, 0)))
    (turn : Nat) : input.GoesOn starts ((input.scanTurn starts)^[turn] (cursor, 0)) := by
  have bound : input.scanBound = input.program.commandCount *
      (input.program.commandCount * input.heightChanges) +
      (2 * input.program.commandCount + input.program.commandCount * input.heightChanges + 2) := by
    rw [scanBound]
    ring
  by_cases early : turn < input.scanBound
  · exact goes turn early
  obtain ⟨first, period, positive, within, circle⟩ := exists_circle fun turn small =>
    goes turn (by omega)
  -- The same place of the circle was passed in the first turn.
  obtain ⟨place, turns, late, passed, split⟩ : ∃ place turns, first ≤ place ∧ place < first + period ∧
      turn = period * turns + place := by
    refine ⟨first + (turn - first) % period, (turn - first) / period, Nat.le_add_right _ _,
      Nat.add_lt_add_left (Nat.mod_lt _ positive) _, ?_⟩
    have divided := Nat.div_add_mod (turn - first) period
    omega
  have here : (·.bind input.scanNext)^[period] ((·.bind input.scanNext)^[place] cursor) =
      (·.bind input.scanNext)^[place] cursor := by
    obtain ⟨more, rfl⟩ := Nat.exists_eq_add_of_le late
    rw [Nat.add_comm first more, Function.iterate_add_apply, ← Function.iterate_add_apply _ period,
      Nat.add_comm period more, Function.iterate_add_apply, circle]
  obtain ⟨height, reached, low⟩ : ∃ height : Int, (input.scanTurn starts)^[place] (cursor, 0) =
        ((·.bind input.scanNext)^[place] cursor, height) ∧
      height.natAbs ≤ place * input.heightChanges := by
    obtain ⟨amount, small, moved⟩ := input.scanTurn_iterate_snd starts place cursor
    refine ⟨_, Prod.ext (scanTurn_iterate_fst _ _ _) rfl, ?_⟩
    rcases moved with same | moved
    · exact (congrArg Int.natAbs (same 0)).trans_le small
    · exact (congrArg Int.natAbs ((moved 0).trans (Int.zero_add amount))).trans_le small
  have once := goes place (by omega)
  have again := goes (period + place) (by omega)
  rw [Function.iterate_add_apply, reached] at again
  rw [reached] at once
  rw [split, Function.iterate_add_apply, reached]
  obtain ⟨amount, -, moved⟩ :=
    input.scanTurn_iterate_snd starts period ((·.bind input.scanNext)^[place] cursor)
  rcases moved with same | moved
  · cases turns with
    | zero => exact once
    | succ turns =>
        rw [(iterate_circle here turns).1 same]
        exact again
  · rw [(iterate_circle here turns).2 moved]
    by_cases base : height + turns * amount = 0
    · -- A height that moves has by now left every height of the first turn behind.
      have still : amount = 0 := by
        by_contra moves
        have shift : turns * amount = -height := by omega
        have size : turns ≤ height.natAbs := by
          have product := congrArg Int.natAbs shift
          rw [Int.natAbs_mul, Int.natAbs_natCast, Int.natAbs_neg] at product
          rw [← product]
          exact Nat.le_mul_of_pos_right _ (Int.natAbs_pos.mpr moves)
        have few : turns ≤ input.program.commandCount * input.heightChanges :=
          (size.trans low).trans (Nat.mul_le_mul_right _ (by omega))
        have soon : period * turns ≤ input.program.commandCount *
            (input.program.commandCount * input.heightChanges) := Nat.mul_le_mul (by omega) few
        omega
      rw [still, Int.mul_zero, Int.add_zero]
      exact once
    · exact once.of_ne_zero base

/-- A scan that has not ended by its bound never ends. -/
theorem scanned_eq_none_of_scanBound {cursor candidate : Option Nat}
    (unended : (input.scanned starts input.scanBound ⟨cursor, 0, candidate⟩).2 = none) (count : Nat) :
    (input.scanned starts count ⟨cursor, 0, candidate⟩).2 = none :=
  (scanned_eq_none_iff _ _).mpr fun turn _ =>
    goesOn_of_scanBound ((scanned_eq_none_iff _ _).mp unended) turn

/-- The scan gives what its loop gives, or says that the loop never ends. -/
theorem switchEnd_eq (input : RecoveryInput) (jump : Nat) (starts : List Nat) (default : Nat) :
    (∃ count visited, input.scanned (starts ++ [default]) count (input.scanStart jump) =
        (visited, some (input.switchEnd jump starts default))) ∨
      input.switchEnd jump starts default = .error .endlessScan ∧
        ∀ count, (input.scanned (starts ++ [default]) count (input.scanStart jump)).2 = none := by
  have same : input.switchEnd jump starts default =
      (input.scanned (starts ++ [default]) input.scanBound (input.scanStart jump)).2.getD
        (.error .endlessScan) := scanFrom_eq _ _
  cases ended : (input.scanned (starts ++ [default]) input.scanBound (input.scanStart jump)).2 with
  | some result =>
      refine .inl ⟨input.scanBound, _, Prod.ext rfl (ended.trans ?_)⟩
      rw [same, ended]
      rfl
  | none => exact .inr ⟨by rw [same, ended]; rfl, scanned_eq_none_of_scanBound ended⟩

/-! ## Jumps that lead forward -/

/-- Every jump that the scan follows leads forward. -/
def SkipsForward (input : RecoveryInput) : Prop :=
  ∀ command destination, input.Follows command →
    input.table.destination command = .ok (some destination) → command < destination

theorem lt_of_scanNext {command next : Nat} (forward : input.SkipsForward)
    (found : input.scanNext command = some next) : command < next := by
  unfold scanNext at found
  split at found
  · rename_i follows
    cases leads : input.table.destination command with
    | error fault =>
        rw [leads] at found
        cases found
    | ok destination =>
        obtain rfl : destination = some next := by simpa [leads, Except.toOption] using found
        exact forward command next follows leads
  · rw [Program.next?] at found
    split at found
    · obtain rfl := Option.some.inj found
      exact Nat.lt_succ_self command
    · cases found

/-- From an instruction on the scan visits later ones alone, each at most once, and ends. -/
theorem scanned_of_forward (forward : input.SkipsForward) (count : Nat) (scan : SwitchScan)
    (positive : 0 < count)
    (enough : ∀ command ∈ scan.cursor, input.program.commandCount - command + 2 ≤ count) :
    (input.scanned starts count scan).2.isSome ∧
      (input.scanned starts count scan).1.Pairwise (· < ·) ∧
      ∀ command ∈ (input.scanned starts count scan).1, ∃ first ∈ scan.cursor, first ≤ command := by
  induction count generalizing scan with
  | zero => exact absurd positive (Nat.lt_irrefl 0)
  | succ count induction =>
      have alone : scan.cursor.toList.Pairwise (· < ·) ∧
          ∀ command ∈ scan.cursor.toList, ∃ first ∈ scan.cursor, first ≤ command := by
        cases scan.cursor <;> simp
      rw [scanned]
      split
      · exact ⟨rfl, alone⟩
      · exact ⟨rfl, alone⟩
      · rename_i next stepped
        obtain ⟨_ | command, height, candidate⟩ := scan
        · cases stepped
        · have goes := goesOn_of_scanStep stepped
          obtain ⟨_, same⟩ := scanStep_of_goesOn candidate goes
          have moved : next.cursor = input.scanNext command := by
            rw [stepped] at same
            obtain rfl := SwitchStep.more.inj (Except.ok.inj same)
            rfl
          have left : input.program.commandCount - command + 2 ≤ count + 1 := enough command rfl
          have behind : ∀ later ∈ next.cursor,
              command < later ∧ input.program.commandCount - later + 2 ≤ count := by
            intro later found
            rw [moved] at found
            have inside : command < input.program.commandCount := by
              refine Nat.not_le.mp fun outside => ?_
              rw [scanNext_eq_none outside] at found
              cases found
            have onward := lt_of_scanNext forward found
            exact ⟨onward, by omega⟩
          obtain ⟨ended, sorted, later⟩ :=
            induction next (by omega) fun later found => (behind later found).2
          have above : ∀ other ∈ (input.scanned starts count next).1, command < other := by
            intro other listed
            obtain ⟨first, found, order⟩ := later other listed
            exact (behind first found).1.trans_le order
          refine ⟨ended, List.pairwise_cons.mpr ⟨above, sorted⟩, ?_⟩
          rintro other (_ | ⟨_, listed⟩)
          · exact ⟨command, rfl, Nat.le_refl _⟩
          · exact ⟨command, rfl, (above other listed).le⟩

/-- Where the jumps around deferred arguments lead forward, the scan behind a dispatch visits the
instructions in their order, each at most once, and gives its answer when it has met them all. -/
theorem switchEnd_scans_forward (forward : input.SkipsForward) (jump : Nat) (starts : List Nat)
    (default : Nat) :
    ∃ visited, input.scanned (starts ++ [default]) (input.program.commandCount + 1)
        (input.scanStart jump) = (visited, some (input.switchEnd jump starts default)) ∧
      visited.Pairwise (· < ·) ∧ (∀ command ∈ visited, jump < command) := by
  have cursor : ∀ command ∈ (input.scanStart jump).cursor,
      command = jump + 1 ∧ command < input.program.commandCount := by
    intro command found
    rw [scanStart, Program.next?] at found
    split at found
    · rename_i inside
      obtain rfl := Option.some.inj found
      exact ⟨rfl, inside.1⟩
    · cases found
  obtain ⟨ended, sorted, later⟩ := @scanned_of_forward input (starts ++ [default]) forward
    (input.program.commandCount + 1) (input.scanStart jump) (Nat.succ_pos _) fun command found => by
      obtain ⟨first, inside⟩ := cursor command found
      omega
  refine ⟨_, Prod.ext rfl ?_, sorted, fun command listed => ?_⟩
  · rcases input.switchEnd_eq jump starts default with ⟨count, visited, found⟩ | ⟨-, endless⟩
    · have other := @scanned_add input _ count _ (by rw [found]; rfl)
        (input.program.commandCount + 1)
      rw [Nat.add_comm, scanned_add ended count, found] at other
      rw [other]
    · rw [endless] at ended
      cases ended
  · obtain ⟨first, found, order⟩ := later command listed
    obtain ⟨rfl, -⟩ := cursor first found
    exact order

/-! ## Jumps that lead backward -/

/-- An instruction at which a scan goes on is visited, and then the one that it leads to. -/
theorem scanned_succ {command : Nat} {height : Int}
    (goes : input.GoesOn starts (some command, height)) (count : Nat) (candidate : Option Nat) :
    ∃ height' candidate', input.scanned starts (count + 1) ⟨some command, height, candidate⟩ =
      (command :: (input.scanned starts count ⟨input.scanNext command, height', candidate'⟩).1,
        (input.scanned starts count ⟨input.scanNext command, height', candidate'⟩).2) := by
  obtain ⟨candidate', stepped⟩ := scanStep_of_goesOn candidate goes
  refine ⟨input.scanHeight starts command height, candidate', ?_⟩
  rw [scanned, stepped]
  rfl

/-- A saved state and a jump back to it keep the scan between them forever. -/
theorem scanned_of_skip_back {first : Nat} (next : input.program.next? first = some (first + 1))
    (alive : input.table.isDead first = .ok false) (follows : input.Follows (first + 1))
    (back : input.table.destination (first + 1) = .ok (some first)) (turns : Nat) (height : Int)
    (candidate : Option Nat) :
    input.scanned starts (2 * turns) ⟨some first, height, candidate⟩ =
      ((List.replicate turns [first, first + 1]).flatten, none) := by
  have saves : (input.program.opcode first).isStateSave = true := by
    have behind := follows.2.2
    simp only [skipsClosure, Program.follows, Program.previous?, Nat.add_sub_cancel] at behind
    split at behind
    · exact behind
    · cases behind
  have stays : ¬input.Follows first := by
    rintro ⟨-, opcode, -⟩
    rw [opcode] at saves
    cases saves
  have onward : ∀ height, input.GoesOn starts (some first, height) := by
    refine fun height => .inr ⟨alive, fun opcode => ?_, fun skips => absurd skips stays⟩
    rw [opcode] at saves
    cases saves
  have around : ∀ height, input.GoesOn starts (some (first + 1), height) := by
    refine fun height => .inr ⟨follows.1, fun opcode => ?_, fun _ => ⟨_, back⟩⟩
    rw [follows.2.1] at opcode
    cases opcode
  have second : input.scanNext first = some (first + 1) := by rw [scanNext, if_neg stays, next]
  have again : input.scanNext (first + 1) = some first := by
    rw [scanNext, if_pos follows, back]
    rfl
  induction turns generalizing height candidate with
  | zero => rfl
  | succ turns induction =>
      obtain ⟨low, passed, one⟩ := scanned_succ (onward height) (2 * turns + 1) candidate
      obtain ⟨high, left, two⟩ := scanned_succ (around low) (2 * turns) passed
      rw [Nat.mul_succ, one, second, two, again, induction]
      rfl

/-! ## A switch with one case -/

/-- A switch over the number 1 whose only case, for the number 5, executes some instructions. -/
def dispatching (case : List Instruction) : Program :=
  .ofCode ([.constant (.int 1), ⟨.copyTop, .void, .stack (-4) 4⟩, .constant (.int 5),
    ⟨.equal, .intInt, .none⟩, .jump .jumpNonzero 12, .jump .jump (6 + codeSize case)] ++ case ++
    [⟨.moveStack, .void, .offset (-4)⟩, .simple .ret .void]) (by simp)

/-- A program of one subroutine passes the analysis once its jumps land. -/
theorem analysis_of_isAlone {program : Program} {code : List Instruction}
    (alone : program.IsAlone code) (catalog : ActionCatalog) (land : Jumps.AllLand program)
    {live : Array Bool} (found : Liveness.liveSet program (.resolved program) = .ok live) :
    ∃ analysis, Analysis.ofProgram program catalog {} = .ok analysis ∧
      (Liveness.markedTable program live).SameFlow analysis.table := by
  obtain ⟨analysis, done, same, -⟩ := Analysis.ofProgram_eq_ok catalog {}
    (by rw [alone.subroutineCount]; exact Nat.one_pos) alone.increasing land found
    (fun _ => trivial) fun calls => InferenceInput.keeps_true _ _
  exact ⟨analysis, done, same⟩

/-- The case defers an action. -/
def deferringCase : Program :=
  dispatching [⟨.storeState, .void, .state 0 0⟩, .jump .jump 18, .constant (.string "a"),
    ⟨.action, .void, .action 1 1⟩, .simple .ret .void, ⟨.action, .void, .action 9 1⟩]

/-- The scan of the switch skips the code of the deferred action. -/
theorem switchEnd_scans_forward_deferring : ∃ analysis,
    Analysis.ofProgram deferringCase .empty {} = .ok analysis ∧
    (analysis.recoveryInput deferringCase .empty {} []).SkipsForward ∧
    ∃ visited, (analysis.recoveryInput deferringCase .empty {} []).scanned [47, 80] 15
        ((analysis.recoveryInput deferringCase .empty {} []).scanStart 5) =
          (visited, some ((analysis.recoveryInput deferringCase .empty {} []).switchEnd 5 [47] 80)) ∧
      visited.Pairwise (· < ·) ∧ ∀ command ∈ visited, 5 < command := by
  have land : ∀ command < 14, (Jumps.target? deferringCase command).isSome →
      (Jumps.destination? deferringCase command).isSome := by decide
  have found : Liveness.liveSet deferringCase (.resolved deferringCase) =
      .ok (Array.replicate 14 true) := by
    decide +kernel
  have led : ∀ command < 14, deferringCase.opcode command = .jump →
      deferringCase.follows command Opcode.isStateSave = true →
        (Liveness.markedTable deferringCase (Array.replicate 14 true)).destination command =
          .ok (some 11) ∧ command < 11 := by
    decide +kernel
  have alone : deferringCase.IsAlone _ := Program.isAlone_ofCode _ (by simp)
  obtain ⟨analysis, done, same⟩ := analysis_of_isAlone alone .empty land found
  have forward : (analysis.recoveryInput deferringCase .empty {} []).SkipsForward := by
    rintro command destination ⟨-, opcode, skips⟩ leads
    have inside : command < 14 := by
      by_contra outside
      have absent : deferringCase.command? command = none :=
        Array.getElem?_eq_none (show deferringCase.commandCount ≤ command from Nat.not_lt.mp outside)
      have jumps : deferringCase.opcode command = .jump := opcode
      simp [Program.opcode, Program.instruction, absent, Instruction.simple] at jumps
    obtain ⟨target, less⟩ := led command inside opcode skips
    have known := (same.destination command).trans target
    obtain rfl := Option.some.inj (Except.ok.inj (known.symm.trans leads))
    exact less
  exact ⟨analysis, done, forward, switchEnd_scans_forward forward 5 [47] 80⟩

/-- The case jumps to its own beginning, around the code of no argument. -/
def circlingCase : Program :=
  dispatching [⟨.storeState, .void, .state 0 0⟩, .jump .jump (-10)]

/-- The scan of the switch goes round and round in its case. -/
theorem switchEnd_circles : ∃ analysis, Analysis.ofProgram circlingCase .empty {} = .ok analysis ∧
    ∀ names input, input = analysis.recoveryInput circlingCase .empty {} names →
      (∀ turns, input.scanned [47, 63] (2 * turns) (input.scanStart 5) =
        ((List.replicate turns [6, 7]).flatten, none)) ∧
      input.switchEnd 5 [47] 63 = .error .endlessScan := by
  have land : ∀ command < 10, (Jumps.target? circlingCase command).isSome →
      (Jumps.destination? circlingCase command).isSome := by decide
  have found : Liveness.liveSet circlingCase (.resolved circlingCase) =
      .ok (Array.replicate 10 true) := by
    decide +kernel
  have alive : (Liveness.markedTable circlingCase (Array.replicate 10 true)).isDead 6 = .ok false ∧
      (Liveness.markedTable circlingCase (Array.replicate 10 true)).isDead 7 = .ok false ∧
      (Liveness.markedTable circlingCase (Array.replicate 10 true)).destination 7 = .ok (some 6) := by
    decide +kernel
  have code : circlingCase.next? 5 = some 6 ∧ circlingCase.next? 6 = some 7 ∧
      circlingCase.opcode 7 = .jump ∧ circlingCase.follows 7 Opcode.isStateSave = true := by
    decide
  have alone : circlingCase.IsAlone _ := Program.isAlone_ofCode _ (by simp)
  obtain ⟨analysis, done, same⟩ := analysis_of_isAlone alone .empty land found
  refine ⟨analysis, done, ?_⟩
  rintro names input rfl
  have start : (analysis.recoveryInput circlingCase .empty {} names).scanStart 5 = ⟨some 6, 0, none⟩ :=
    congrArg (SwitchScan.mk · 0 none) code.1
  have circles : ∀ turns, (analysis.recoveryInput circlingCase .empty {} names).scanned [47, 63]
      (2 * turns) ((analysis.recoveryInput circlingCase .empty {} names).scanStart 5) =
        ((List.replicate turns [6, 7]).flatten, none) := by
    intro turns
    rw [start]
    exact scanned_of_skip_back code.2.1 ((same.isDead 6).trans alive.1)
      ⟨(same.isDead 7).trans alive.2.1, code.2.2⟩ ((same.destination 7).trans alive.2.2) turns 0 none
  refine ⟨circles, ?_⟩
  rcases (analysis.recoveryInput circlingCase .empty {} names).switchEnd_eq 5 [47] 63 with
    ⟨count, visited, ended⟩ | ⟨endless, -⟩
  · have longer := @scanned_add _ _ count _ (by rw [ended]; rfl) count
    rw [← Nat.two_mul] at longer
    cases (circles count).symm.trans (longer.trans ended)
  · exact endless

end RecoveryInput
end NwScript
