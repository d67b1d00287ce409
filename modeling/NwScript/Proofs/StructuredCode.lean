import NwScript.Proofs.IntExpressions

/-!
# Structured code

Statements that print, branch and loop on a random number, and their code.  A conditional jump leads
behind a body, a plain jump leads behind an else branch or back to a condition, and both stay in the
code of their statement.  So every jump lands where a statement begins, and everything is reached.
-/

namespace NwScript

theorem Program.previous?_lt {program : Program} {previous command : Nat}
    (found : program.previous? command = some previous) : previous < command := by
  unfold Program.previous? at found
  split at found
  · cases found
    omega
  · cases found

/-- A statement that prints, branches or loops. -/
inductive Structured where
  /-- A print. -/
  | print (text : String)
  /-- A branch. -/
  | branch (body : List Structured)
  /-- A branch with an else branch. -/
  | branchElse (body other : List Structured)
  /-- A loop that tests before its body. -/
  | loop (body : List Structured)
  deriving Repr, Inhabited

namespace Structured

/-- Code that jumps by a distance if a random number is zero. -/
def test (distance : Int) : List Instruction :=
  [.constant (.int 2), .callAction 0 1, .jump .jumpZero distance]

mutual

/-- The code of a statement. -/
def code : Structured → List Instruction
  | print text => [.constant (.string text), .callAction 1 1]
  | branch body => test (codeSize (codes body) + 6) ++ codes body
  | branchElse body other =>
      test (codeSize (codes body) + 12) ++
        (codes body ++ ([.jump .jump (codeSize (codes other) + 6)] ++ codes other))
  | loop body =>
      test (codeSize (codes body) + 12) ++
        (codes body ++ [.jump .jump (-(codeSize (codes body) + 17))])

/-- The code of statements in order. -/
def codes : List Structured → List Instruction
  | [] => []
  | statement :: rest => code statement ++ codes rest

end

theorem code_print (text : String) :
    code (print text) = [.constant (.string text), .callAction 1 1] := rfl

theorem code_branch (body : List Structured) :
    code (branch body) = test (codeSize (codes body) + 6) ++ codes body := rfl

theorem code_branchElse (body other : List Structured) :
    code (branchElse body other) = test (codeSize (codes body) + 12) ++
      (codes body ++ ([.jump .jump (codeSize (codes other) + 6)] ++ codes other)) := rfl

theorem code_loop (body : List Structured) :
    code (loop body) = test (codeSize (codes body) + 12) ++
      (codes body ++ [.jump .jump (-(codeSize (codes body) + 17))]) := rfl

theorem codes_cons (statement : Structured) (rest : List Structured) :
    codes (statement :: rest) = code statement ++ codes rest := rfl

mutual

/-- No body is empty. -/
def Filled : Structured → Prop
  | print _ => True
  | branch body | loop body => body ≠ [] ∧ AllFilled body
  | branchElse body other => (body ≠ [] ∧ AllFilled body) ∧ other ≠ [] ∧ AllFilled other

/-- No body in any of some statements is empty. -/
def AllFilled : List Structured → Prop
  | [] => True
  | statement :: rest => Filled statement ∧ AllFilled rest

end

/-- What a condition looks like in a script. -/
def condition : Expression :=
  .call "Random" [.literal (.int 2)]

/-- What a print looks like in a script. -/
def printing (text : String) : Statement :=
  .evaluate (.call "PrintString" [.literal (.string text)])

mutual

/-- What a statement looks like in a script. -/
def statement : Structured → Statement
  | print text => printing text
  | branch body => .branch condition (statements body)
  | branchElse body other => .branchElse condition (statements body) (statements other)
  | loop body => .whileLoop condition (statements body)

/-- What statements look like in a script. -/
def statements : List Structured → List Statement
  | [] => []
  | first :: rest => statement first :: statements rest

end

/-- Code that ends with a print. -/
def main (body : List Structured) (closing : String) : List Instruction :=
  codes body ++ code (.print closing)

/-- A subroutine that ends with a print and a return. -/
def routine (body : List Structured) (closing : String) : List Instruction :=
  main body closing ++ [.simple .ret .void]

theorem routine_ne_nil (body : List Structured) (closing : String) : routine body closing ≠ [] := by
  simp [routine]

section Sizes

theorem codeSize_test (distance : Int) : codeSize (test distance) = 17 := rfl

theorem length_test (distance : Int) : (test distance).length = 3 := rfl

theorem length_branch (body : List Structured) :
    (code (branch body)).length = 3 + (codes body).length := by
  rw [code_branch, List.length_append, length_test]

theorem length_branchElse (body other : List Structured) :
    (code (branchElse body other)).length = 3 + (codes body).length + 1 + (codes other).length := by
  rw [code_branchElse]
  simp only [List.length_append, length_test, List.length_singleton]
  omega

theorem length_loop (body : List Structured) :
    (code (loop body)).length = 3 + (codes body).length + 1 := by
  rw [code_loop]
  simp only [List.length_append, length_test, List.length_singleton]
  omega

theorem codeSize_branch (body : List Structured) :
    codeSize (code (branch body)) = 17 + codeSize (codes body) := by
  rw [code_branch, codeSize_append, codeSize_test]

theorem codeSize_branchElse (body other : List Structured) :
    codeSize (code (branchElse body other)) =
      17 + codeSize (codes body) + 6 + codeSize (codes other) := by
  rw [code_branchElse]
  simp only [codeSize_append, codeSize_test, codeSize_cons, codeSize_nil, Instruction.size,
    Instruction.jump]
  omega

theorem codeSize_loop (body : List Structured) :
    codeSize (code (loop body)) = 17 + codeSize (codes body) + 6 := by
  rw [code_loop]
  simp only [codeSize_append, codeSize_test, codeSize_cons, codeSize_nil, Instruction.size,
    Instruction.jump]
  omega

theorem codes_append (first second : List Structured) :
    codes (first ++ second) = codes first ++ codes second := by
  induction first with
  | nil => rfl
  | cons statement rest induction =>
      rw [List.cons_append, codes_cons, codes_cons, induction, List.append_assoc]

theorem code_ne_nil (statement : Structured) : code statement ≠ [] := by
  cases statement <;> simp [code, test]

end Sizes

/-- An instruction where a statement begins or a body ends. -/
def IsStart (program : Program) (command : Nat) : Prop :=
  program.opcode command = .const ∨ program.opcode command = .jump

/-- An instruction of structured code whose jumps stay between two instructions. -/
inductive IsRegular (program : Program) (low high command : Nat) : Prop
  /-- A literal is pushed for the action behind it. -/
  | literal {value : Constant} (here : program.instruction command = .constant value)
      (behind : program.opcode (command + 1) = .action)
  /-- A condition is computed for the jump behind it. -/
  | value (here : program.instruction command = .callAction 0 1)
      (behind : program.opcode (command + 1) = .jumpZero)
  /-- A print. -/
  | effect (here : program.instruction command = .callAction 1 1)
      (behind : IsStart program (command + 1) ∨ program.opcode (command + 1) = .ret)
  /-- A jump forwards over a body. -/
  | test {distance : Int} {target : Nat} (here : program.instruction command = .jump .jumpZero distance)
      (leads : Jumps.destination? program command = some target) (forward : command < target)
      (inside : target ≤ high) (begins : IsStart program target)
      (behind : IsStart program (command + 1))
  /-- A jump behind an else branch or back to a condition; a test leads behind it. -/
  | skip {distance : Int} {target test : Nat}
      (here : program.instruction command = .jump .jump distance)
      (leads : Jumps.destination? program command = some target) (low_le : low ≤ target)
      (inside : target ≤ high) (begins : IsStart program target)
      (behind : IsStart program (command + 1)) (before : test < command)
      (tests : program.opcode test = .jumpZero)
      (passes : Jumps.destination? program test = some (command + 1))

section Regular

variable {program : Program} {low high first position command : Nat}

theorem IsRegular.mono {lower higher : Nat} (regular : IsRegular program low high command)
    (down : lower ≤ low) (up : high ≤ higher) : IsRegular program lower higher command := by
  cases regular with
  | literal here behind => exact .literal here behind
  | value here behind => exact .value here behind
  | effect here behind => exact .effect here behind
  | test here leads forward inside begins behind =>
      exact .test here leads forward (Nat.le_trans inside up) begins behind
  | skip here leads low_le inside begins behind before tests passes =>
      exact .skip here leads (Nat.le_trans down low_le) (Nat.le_trans inside up) begins behind before
        tests passes

/-- All instructions from one on and before another one are regular. -/
def AllRegular (program : Program) (low high first last : Nat) : Prop :=
  ∀ command, first ≤ command → command < last → IsRegular program low high command

theorem AllRegular.mono {lower higher last : Nat} (regular : AllRegular program low high first last)
    (down : lower ≤ low) (up : high ≤ higher) : AllRegular program lower higher first last :=
  fun command behind before => (regular command behind before).mono down up

theorem AllRegular.append {middle last : Nat} (one : AllRegular program low high first middle)
    (other : AllRegular program low high middle last) : AllRegular program low high first last := by
  intro command behind before
  by_cases early : command < middle
  · exact one command behind early
  · exact other command (Nat.not_lt.mp early) before

theorem AllRegular.single (regular : IsRegular program low high first) :
    AllRegular program low high first (first + 1) := by
  intro command behind before
  obtain rfl : command = first := by omega
  exact regular

theorem isStart_of_head {instruction : Instruction} {code : List Instruction}
    (spans : program.Spans first position (instruction :: code))
    (starts : instruction.opcode = .const ∨ instruction.opcode = .jump) : IsStart program first := by
  rw [IsStart, Program.opcode, spans.head.1]
  exact starts

/-- Nothing waits before the code of statements if nothing waits behind it. -/
theorem isStart_codes (body : List Structured) (spans : program.Spans first position (codes body))
    (ends : IsStart program (first + (codes body).length)) : IsStart program first := by
  cases body with
  | nil => exact ends
  | cons statement rest =>
      rw [codes_cons] at spans
      cases statement with
      | print text => exact isStart_of_head spans.left (.inl rfl)
      | branch body => exact isStart_of_head spans.left.left (.inl rfl)
      | branchElse body other => exact isStart_of_head spans.left.left (.inl rfl)
      | loop body => exact isStart_of_head spans.left.left (.inl rfl)

/-- The jump of a condition. -/
theorem destination?_test (increasing : Positions.Increasing program) {distance : Int} {target : Nat}
    (spans : program.Spans first position (test distance)) (bound : target < program.commandCount)
    (lands : (position : Int) + 11 + distance = program.position target) :
    Jumps.destination? program (first + 2) = some target := by
  have jumped := spans.tail.tail.head
  refine Program.destination?_eq_some increasing rfl jumped.1 bound ?_
  rw [← lands, jumped.2]
  simp [Instruction.size, Instruction.constant, Instruction.callAction]
  omega

/-- The code of a branch in parts. -/
structure BranchParts (program : Program) (first position : Nat) (body : List Structured) : Prop where
  /-- The condition. -/
  guard : program.Spans first position (test (codeSize (codes body) + 6))
  /-- The body. -/
  inner : program.Spans (first + 3) (position + 17) (codes body)
  /-- The condition jumps over the body. -/
  leads : Jumps.destination? program (first + 2) = some (first + 3 + (codes body).length)

theorem branchParts (increasing : Positions.Increasing program) {body : List Structured}
    (spans : program.Spans first position (code (branch body))) :
    BranchParts program first position body := by
  rw [code_branch] at spans
  have inner := spans.right
  rw [length_test, codeSize_test] at inner
  refine ⟨spans.left, inner, destination?_test increasing spans.left inner.inside ?_⟩
  rw [inner.behind]
  push_cast
  omega

/-- The code of a branch with an else branch in parts. -/
structure ElseParts (program : Program) (first position : Nat) (body other : List Structured) :
    Prop where
  /-- The condition. -/
  guard : program.Spans first position (test (codeSize (codes body) + 12))
  /-- The body. -/
  inner : program.Spans (first + 3) (position + 17) (codes body)
  /-- The jump behind the body. -/
  skip : program.Spans (first + 3 + (codes body).length) (position + 17 + codeSize (codes body))
    [.jump .jump (codeSize (codes other) + 6)]
  /-- The else branch. -/
  outer : program.Spans (first + 3 + (codes body).length + 1)
    (position + 17 + codeSize (codes body) + 6) (codes other)
  /-- The condition jumps to the else branch. -/
  leads : Jumps.destination? program (first + 2) = some (first + 3 + (codes body).length + 1)
  /-- The body jumps over the else branch. -/
  skips : Jumps.destination? program (first + 3 + (codes body).length) =
    some (first + 3 + (codes body).length + 1 + (codes other).length)

theorem elseParts (increasing : Positions.Increasing program) {body other : List Structured}
    (spans : program.Spans first position (code (branchElse body other))) :
    ElseParts program first position body other := by
  rw [code_branchElse] at spans
  have guarded := spans.right
  rw [length_test, codeSize_test] at guarded
  have skip := guarded.right.left
  have outer := guarded.right.right
  rw [List.length_singleton, codeSize_cons, codeSize_nil] at outer
  have bound := outer.inside
  have ending := outer.behind
  have landing := outer.head_position
  refine ⟨spans.left, guarded.left, skip, outer, ?_, ?_⟩
  · refine destination?_test increasing spans.left (by omega) ?_
    rw [landing]
    simp only [Instruction.size, Instruction.jump]
    push_cast
    omega
  · refine Program.destination?_eq_some increasing rfl skip.head.1 bound ?_
    rw [skip.head.2, ending]
    simp only [Instruction.size, Instruction.jump]
    push_cast
    omega

/-- The code of a loop in parts. -/
structure LoopParts (program : Program) (first position : Nat) (body : List Structured) : Prop where
  /-- The condition. -/
  guard : program.Spans first position (test (codeSize (codes body) + 12))
  /-- The body. -/
  inner : program.Spans (first + 3) (position + 17) (codes body)
  /-- The jump behind the body. -/
  latch : program.Spans (first + 3 + (codes body).length) (position + 17 + codeSize (codes body))
    [.jump .jump (-(codeSize (codes body) + 17))]
  /-- The condition jumps behind the loop. -/
  leads : Jumps.destination? program (first + 2) = some (first + 3 + (codes body).length + 1)
  /-- The body jumps back to the condition. -/
  returns : Jumps.destination? program (first + 3 + (codes body).length) = some first

theorem loopParts (increasing : Positions.Increasing program) {body : List Structured}
    (spans : program.Spans first position (code (loop body))) :
    LoopParts program first position body := by
  rw [code_loop] at spans
  have guarded := spans.right
  rw [length_test, codeSize_test] at guarded
  have latch := guarded.right
  have bound := latch.inside
  have landing := latch.behind
  rw [List.length_singleton] at bound landing
  refine ⟨spans.left, guarded.left, latch, ?_, ?_⟩
  · refine destination?_test increasing spans.left bound ?_
    rw [landing, codeSize_cons, codeSize_nil]
    simp only [Instruction.size, Instruction.jump]
    push_cast
    omega
  · refine Program.destination?_eq_some increasing rfl latch.head.1 (by omega) ?_
    rw [latch.head.2, spans.left.head.2]
    push_cast
    omega

theorem opcode_test {distance : Int} (spans : program.Spans first position (test distance)) :
    program.opcode (first + 2) = .jumpZero := by
  rw [Program.opcode, spans.tail.tail.head.1]
  rfl

/-- A condition and the jump over what it guards. -/
theorem allRegular_test {distance : Int} {target : Nat}
    (spans : program.Spans first position (test distance)) (behind : IsStart program (first + 3))
    (leads : Jumps.destination? program (first + 2) = some target) (forward : first + 3 ≤ target)
    (inside : target ≤ high) (begins : IsStart program target) :
    AllRegular program low high first (first + 3) := by
  have pushed := spans.head.1
  have called := spans.tail.head.1
  have jumped := spans.tail.tail.head
  refine AllRegular.append (.single ?_) (AllRegular.append (.single ?_) (.single ?_))
  · refine .literal pushed ?_
    rw [Program.opcode, called]
    rfl
  · exact .value called (opcode_test spans)
  · exact .test jumped.1 leads (by omega) inside begins behind

/-- The jump over an else branch and the else branch. -/
theorem ElseParts.allRegular_skip {body other : List Structured}
    (parts : ElseParts program first position body other)
    (ends : IsStart program (first + 3 + (codes body).length + 1 + (codes other).length))
    (outer : AllRegular program (first + 3 + (codes body).length + 1)
      (first + 3 + (codes body).length + 1 + (codes other).length)
      (first + 3 + (codes body).length + 1)
      (first + 3 + (codes body).length + 1 + (codes other).length)) :
    AllRegular program (first + 3 + (codes body).length)
      (first + 3 + (codes body).length + 1 + (codes other).length) (first + 3 + (codes body).length)
      (first + 3 + (codes body).length + 1 + (codes other).length) := by
  have otherwise := isStart_codes other parts.outer ends
  exact AllRegular.append (.single (.skip parts.skip.head.1 parts.skips (by omega) (Nat.le_refl _)
    ends otherwise (by omega) (opcode_test parts.guard) parts.leads))
    (outer.mono (Nat.le_succ _) (Nat.le_refl _))

mutual

/-- The jumps of a statement stay in its code. -/
theorem allRegular_code (increasing : Positions.Increasing program) (statement : Structured)
    {first position : Nat} (spans : program.Spans first position (code statement))
    (ends : IsStart program (first + (code statement).length)) :
    AllRegular program first (first + (code statement).length) first
      (first + (code statement).length) := by
  cases statement with
  | print text =>
      rw [code_print] at spans ends ⊢
      refine AllRegular.append (.single (.literal spans.head.1 ?_))
        (.single (.effect ?_ (.inl ends)))
      · rw [Program.opcode, spans.tail.head.1]
        rfl
      · exact spans.tail.head.1
  | branch body =>
      obtain ⟨guard, inner, leads⟩ := branchParts increasing spans
      rw [length_branch, ← Nat.add_assoc] at ends ⊢
      have behind := isStart_codes body inner ends
      exact AllRegular.append (allRegular_test guard behind leads (by omega) (by omega) ends)
        ((allRegular_codes increasing body inner ends).mono (by omega) (by omega))
  | branchElse body other =>
      have parts := elseParts increasing spans
      rw [length_branchElse, ← Nat.add_assoc, ← Nat.add_assoc, ← Nat.add_assoc] at ends ⊢
      have joins := isStart_of_head parts.skip (.inr rfl)
      have otherwise := isStart_codes other parts.outer ends
      have behind := isStart_codes body parts.inner joins
      have outer := parts.allRegular_skip ends (allRegular_codes increasing other parts.outer ends)
      exact AllRegular.append (AllRegular.append
        (allRegular_test parts.guard behind parts.leads (by omega) (by omega) otherwise)
        ((allRegular_codes increasing body parts.inner joins).mono (by omega) (by omega)))
        (outer.mono (by omega) (by omega))
  | loop body =>
      obtain ⟨guard, inner, latch, leads, returns⟩ := loopParts increasing spans
      rw [length_loop, ← Nat.add_assoc, ← Nat.add_assoc] at ends ⊢
      have joins := isStart_of_head latch (.inr rfl)
      have behind := isStart_codes body inner joins
      have begins := isStart_of_head guard (.inl rfl)
      have tests := opcode_test guard
      exact AllRegular.append (AllRegular.append
        (allRegular_test guard behind leads (by omega) (by omega) ends)
        ((allRegular_codes increasing body inner joins).mono (by omega) (by omega)))
        (.single (.skip latch.head.1 returns (by omega) (by omega) begins ends (by omega) tests
          leads))

theorem allRegular_codes (increasing : Positions.Increasing program) (body : List Structured)
    {first position : Nat} (spans : program.Spans first position (codes body))
    (ends : IsStart program (first + (codes body).length)) :
    AllRegular program first (first + (codes body).length) first
      (first + (codes body).length) := by
  cases body with
  | nil =>
      intro command behind before
      rw [codes, List.length_nil] at before
      omega
  | cons statement rest =>
      rw [codes_cons] at spans ends ⊢
      rw [List.length_append, ← Nat.add_assoc] at ends ⊢
      have middle := isStart_codes rest spans.right ends
      exact AllRegular.append
        ((allRegular_code increasing statement spans.left middle).mono (by omega) (by omega))
        ((allRegular_codes increasing rest spans.right ends).mono (by omega) (by omega))

end

theorem IsRegular.opcode (regular : IsRegular program low high command) :
    program.opcode command = .const ∨ program.opcode command = .action ∨
      program.opcode command = .jumpZero ∨ program.opcode command = .jump := by
  rw [Program.opcode]
  cases regular with
  | literal here => exact .inl (by rw [here]; rfl)
  | value here => exact .inr (.inl (by rw [here]; rfl))
  | effect here => exact .inr (.inl (by rw [here]; rfl))
  | test here => exact .inr (.inr (.inl (by rw [here]; rfl)))
  | skip here => exact .inr (.inr (.inr (by rw [here]; rfl)))

/-- A test leads behind every plain jump. -/
theorem IsRegular.exists_test (regular : IsRegular program low high command)
    (jumps : program.opcode command = .jump) : ∃ test < command,
      program.opcode test = .jumpZero ∧
        Jumps.destination? program test = some (command + 1) := by
  rw [Program.opcode] at jumps
  cases regular with
  | literal here | value here | effect here | test here =>
      rw [here] at jumps
      exact absurd jumps Opcode.noConfusion
  | skip here leads low_le inside begins behind before tests passes =>
      exact ⟨_, before, tests, passes⟩

theorem IsRegular.exists_destination (regular : IsRegular program low high command)
    (jumps : (program.opcode command).isJump) :
    ∃ target ≤ high, Jumps.destination? program command = some target ∧
      IsStart program target ∧ (program.opcode command = .jump → low ≤ target) ∧
        (program.opcode command = .jumpZero → command < target) := by
  rw [Program.opcode] at jumps ⊢
  cases regular with
  | literal here | value here | effect here =>
      rw [here] at jumps
      exact absurd jumps Bool.false_ne_true
  | test here leads forward inside begins =>
      rw [here]
      exact ⟨_, inside, leads, begins, fun other => absurd other Opcode.noConfusion, fun _ => forward⟩
  | skip here leads low_le inside begins =>
      rw [here]
      exact ⟨_, inside, leads, begins, fun _ => low_le, fun other => absurd other Opcode.noConfusion⟩

end Regular

section Routine

variable {program : Program} {body : List Structured} {closing : String} {command : Nat}

theorem length_main (body : List Structured) (closing : String) :
    (main body closing).length = (codes body).length + 2 := by
  rw [main, List.length_append]
  rfl

theorem length_routine (body : List Structured) (closing : String) :
    (routine body closing).length = (codes body).length + 3 := by
  rw [routine, List.length_append, length_main]
  rfl

variable (alone : program.IsAlone (routine body closing))

include alone

theorem spans_main : program.Spans 0 Instruction.headerSize (main body closing) :=
  alone.spans (List.cons_ne_nil _ _)

theorem opcode_last : program.opcode ((codes body).length + 2) = .ret := by
  have here : (routine body closing)[(main body closing).length]? = some (.simple .ret .void) := by
    rw [routine, List.getElem?_append_right (Nat.le_refl _), Nat.sub_self]
    rfl
  rw [length_main] at here
  rw [Program.opcode, alone.instruction here]
  rfl

theorem isStart_end : IsStart program (codes body).length := by
  have spans := (spans_main alone).right
  rw [Nat.zero_add] at spans
  exact isStart_of_head spans (.inl rfl)

/-- Every instruction but the return is regular. -/
theorem allRegular_main :
    AllRegular program 0 (codes body).length 0 ((codes body).length + 2) := by
  have spans := spans_main alone
  have ends := isStart_end alone
  rw [← Nat.zero_add (codes body).length] at ends
  have inner := allRegular_codes alone.increasing body spans.left ends
  have print := spans.right
  rw [Nat.zero_add] at inner print
  have action := print.tail.head.1
  refine inner.append (AllRegular.append (.single (.literal print.head.1 ?_))
    (.single (.effect action (.inr (opcode_last alone)))))
  rw [Program.opcode, action]
  rfl

theorem regular_or_last (inside : command < program.commandCount) :
    IsRegular program 0 (codes body).length command ∨ program.opcode command = .ret := by
  rw [alone.commandCount, length_routine] at inside
  rcases Nat.lt_succ_iff_lt_or_eq.mp inside with before | rfl
  · exact .inl (allRegular_main alone command (Nat.zero_le _) before)
  · exact .inr (opcode_last alone)

theorem next?_eq (before : command < (codes body).length + 2) :
    program.next? command = some (command + 1) :=
  alone.next? (by rw [length_routine]; omega)

/-- Everything is reached: what a plain jump passes over, a test leads to. -/
theorem isReachable_routine (inside : command < program.commandCount) :
    IsReachable program (.resolved program) command := by
  have counted : 0 < program.subroutineCount := by
    rw [alone.subroutineCount]
    exact Nat.one_pos
  refine ⟨counted, ?_⟩
  induction command using Nat.strong_induction_on with
  | _ command induction =>
      cases command with
      | zero =>
          rw [Program.entry_zero]
      | succ command =>
          have bound := inside
          rw [alone.commandCount, length_routine] at bound
          have before : command < (codes body).length + 2 := by omega
          have reached := induction command (Nat.lt_succ_self _) (by omega)
          have regular := allRegular_main alone command (Nat.zero_le _) before
          by_cases jumps : program.opcode command = .jump
          · obtain ⟨test, earlier, tests, passes⟩ := regular.exists_test jumps
            have known : test < program.commandCount := by omega
            refine (induction test (by omega) known).tail (.jump ?_ ?_)
            · rw [tests]
              rfl
            · rw [FlowTable.destination_resolved known, passes]
          · have stays : program.opcode command ≠ .ret := by
              rcases regular.opcode with opcode | opcode | opcode | opcode <;> rw [opcode] <;> decide
            exact reached.tail (.next (next?_eq alone before) stays fun other => absurd other jumps)

theorem allLand_routine : Jumps.AllLand program := by
  refine Program.allLand fun command inside jumps => ?_
  rcases regular_or_last alone inside with regular | returns
  · obtain ⟨target, _, leads, _⟩ := regular.exists_destination jumps
    exact ⟨target, leads⟩
  · rw [returns] at jumps
    exact absurd jumps Bool.false_ne_true

/-- No jump skips the operand of a logical operator. -/
theorem skipsOperand_eq_false (inside : command < program.commandCount) :
    Liveness.skipsOperand program command = false := by
  have copies : Liveness.followsTopCopy program command = false := by
    rw [Liveness.followsTopCopy]
    cases found : program.previous? command with
    | none => rfl
    | some previous =>
        have bound := (Program.previous?_lt found).trans inside
        have other : program.opcode previous ≠ .copyTop := by
          rcases regular_or_last alone bound with regular | returns
          · rcases regular.opcode with opcode | opcode | opcode | opcode <;> rw [opcode] <;> decide
          · rw [returns]
            decide
        simp [other]
  rw [Liveness.skipsOperand, copies]
  simp

end Routine

end Structured
end NwScript
