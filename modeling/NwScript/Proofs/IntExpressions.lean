import NwScript.Proofs.SingleRoutine
import NwScript.Recovery.Invocations
import NwScript.Script.Statement

/-!
# Integer expressions and their code

Integer expressions over the locals of a subroutine, the code that computes them on top of the stack,
and the subroutine that assigns one of them to a local.  The right operand of a logical operator is
skipped by a conditional jump on a copy of the left one, so every jump of such code is one that the
analysis tags as a short circuit.
-/

namespace NwScript

/-- The instruction that computes an operator. -/
def BinaryOp.opcode : BinaryOp → Opcode
  | bitOr => .bitOr
  | bitXor => .bitXor
  | bitAnd => .bitAnd
  | equal => .equal
  | notEqual => .notEqual
  | greaterEqual => .greaterEqual
  | greater => .greater
  | less => .less
  | lessEqual => .lessEqual
  | shiftLeft => .shiftLeft
  | shiftRight => .shiftRight
  | unsignedShiftRight => .unsignedShiftRight
  | add => .add
  | sub => .sub
  | mul => .mul
  | div => .div
  | mod => .mod

/-- The instruction that computes an operator. -/
def UnaryOp.opcode : UnaryOp → Opcode
  | negate => .negate
  | not => .not
  | complement => .complement

/-- The instruction that combines both operands. -/
def LogicalOp.opcode : LogicalOp → Opcode
  | and => .logAnd
  | or => .logOr

/-- The jump over the right operand. -/
def LogicalOp.skipper : LogicalOp → Opcode
  | and => .jumpZero
  | or => .jumpNonzero

namespace Instruction

/-- A copy of one slot to the top. -/
def copySlot (offset : Int) : Instruction :=
  ⟨.copyTop, .object, .stack offset 4⟩

/-- A copy of the top slot down. -/
def assignSlot (offset : Int) : Instruction :=
  ⟨.copyDown, .object, .stack offset 4⟩

/-- A pop of some slots. -/
def popSlots (count : Nat) : Instruction :=
  ⟨.moveStack, .void, .offset (-4 * count)⟩

/-- A call of an engine action. -/
def callAction (id argumentCount : Nat) : Instruction :=
  ⟨.action, .void, .action id argumentCount⟩

end Instruction

/-- An integer expression over locals, which are numbered from the lowest one. -/
inductive IntExpr where
  /-- A literal. -/
  | literal (value : Int)
  /-- A use of a local. -/
  | read (slot : Nat)
  /-- An operation on one operand. -/
  | unary (op : UnaryOp) (operand : IntExpr)
  /-- An operation that evaluates both operands. -/
  | binary (op : BinaryOp) (left right : IntExpr)
  /-- An operation that may skip its right operand. -/
  | logical (op : LogicalOp) (left right : IntExpr)
  /-- A call of an engine action. -/
  | call (action : Nat) (arguments : List IntExpr)
  deriving Repr, Inhabited

namespace IntExpr

mutual

/-- The code of an expression, where `height` slots from the lowest local on are in use. -/
def code (height : Nat) : IntExpr → List Instruction
  | literal value => [.constant (.int value)]
  | read slot => [.copySlot (-4 * ((height - slot : Nat) : Int))]
  | unary op operand => code height operand ++ [.simple op.opcode .int]
  | binary op left right =>
      code height left ++ (code (height + 1) right ++ [.simple op.opcode .intInt])
  | logical op left right =>
      code height left ++
        ([.copySlot (-4), .jump op.skipper (codeSize (code (height + 1) right) + 8)] ++
          (code (height + 1) right ++ [.simple op.opcode .intInt]))
  | call action arguments => codes height arguments ++ [.callAction action arguments.length]

/-- The code of arguments, the last one first. -/
def codes (height : Nat) : List IntExpr → List Instruction
  | [] => []
  | argument :: arguments => codes height arguments ++ code (height + arguments.length) argument

end

mutual

/-- Only the lowest locals are read, and actions take and give integers and have no default
arguments. -/
def Proper (catalog : ActionCatalog) (locals : Nat) : IntExpr → Prop
  | literal _ => True
  | read slot => slot < locals
  | unary _ operand => Proper catalog locals operand
  | binary _ left right | logical _ left right =>
      Proper catalog locals left ∧ Proper catalog locals right
  | call action arguments =>
      (∃ name, catalog.find? action =
        some (.plain name .int (List.replicate arguments.length .int))) ∧
        AllProper catalog locals arguments

/-- Each of some expressions is proper. -/
def AllProper (catalog : ActionCatalog) (locals : Nat) : List IntExpr → Prop
  | [] => True
  | argument :: arguments => Proper catalog locals argument ∧ AllProper catalog locals arguments

end

/-- The name of a local. -/
def localName (slot : Nat) : String :=
  "int" ++ toString (slot + 1)

mutual

/-- What an expression looks like in a script. -/
def expression (catalog : ActionCatalog) : IntExpr → Expression
  | literal value => .literal (.int value)
  | read slot => .word (localName slot)
  | unary op operand => .unary op (expression catalog operand)
  | binary op left right => .binary op (expression catalog left) (expression catalog right)
  | logical op left right => .logical op (expression catalog left) (expression catalog right)
  | call action arguments =>
      .call (Recover.actionName catalog action) (expressions catalog arguments)

/-- What each of some expressions looks like in a script. -/
def expressions (catalog : ActionCatalog) : List IntExpr → List Expression
  | [] => []
  | argument :: arguments => expression catalog argument :: expressions catalog arguments

end

/-- Code that reserves integers, assigns an expression to one of them and pops them. -/
def assignment (locals target : Nat) (value : IntExpr) : List Instruction :=
  List.replicate locals (.simple .reserve .int) ++ (value.code locals ++
    [.assignSlot (-4 * ((locals + 1 - target : Nat) : Int)), .popSlots 1, .popSlots locals])

/-- A subroutine that does nothing but assign an expression to a local. -/
def routine (locals target : Nat) (value : IntExpr) : List Instruction :=
  value.assignment locals target ++ [.simple .ret .void]

theorem routine_ne_nil (locals target : Nat) (value : IntExpr) :
    value.routine locals target ≠ [] := by
  simp [routine]

/-- An instruction behind which control flows on, unless it is a jump. -/
def IsInner (instruction : Instruction) : Prop :=
  instruction.opcode ≠ .ret ∧ instruction.opcode ≠ .saveBase

mutual

theorem isInner_code (value : IntExpr) (height : Nat) :
    ∀ instruction ∈ value.code height, IsInner instruction := by
  cases value with
  | literal value => simp [code, IsInner, Instruction.constant]
  | read slot => simp [code, IsInner, Instruction.copySlot]
  | unary op operand =>
      rw [code, List.forall_mem_append]
      refine ⟨isInner_code operand height, ?_⟩
      cases op <;> simp [IsInner, Instruction.simple, UnaryOp.opcode]
  | binary op left right =>
      rw [code, List.forall_mem_append, List.forall_mem_append]
      refine ⟨isInner_code left height, isInner_code right (height + 1), ?_⟩
      cases op <;> simp [IsInner, Instruction.simple, BinaryOp.opcode]
  | logical op left right =>
      rw [code, List.forall_mem_append, List.forall_mem_append, List.forall_mem_append]
      refine ⟨isInner_code left height, ?_, isInner_code right (height + 1), ?_⟩
      · cases op <;>
          simp [IsInner, Instruction.copySlot, Instruction.jump, LogicalOp.skipper]
      · cases op <;> simp [IsInner, Instruction.simple, LogicalOp.opcode]
  | call action arguments =>
      rw [code, List.forall_mem_append]
      refine ⟨isInner_codes arguments height, ?_⟩
      simp [IsInner, Instruction.callAction]

theorem isInner_codes (values : List IntExpr) (height : Nat) :
    ∀ instruction ∈ codes height values, IsInner instruction := by
  cases values with
  | nil => simp [codes]
  | cons value values =>
      rw [codes, List.forall_mem_append]
      exact ⟨isInner_codes values height, isInner_code value _⟩

end

/-- Every jump of a stretch of code skips the right operand of a logical operator. -/
def SkipsOnly (program : Program) (first : Nat) (code : List Instruction) : Prop :=
  ∀ place < code.length, (program.opcode (first + place)).isJump →
    Liveness.skipsOperand program (first + place)

section Jumps

variable {program : Program} {first position : Nat}

theorem SkipsOnly.append {left right : List Instruction} (one : SkipsOnly program first left)
    (other : SkipsOnly program (first + left.length) right) :
    SkipsOnly program first (left ++ right) := by
  intro place inside jumps
  rw [List.length_append] at inside
  by_cases here : place < left.length
  · exact one place here jumps
  · obtain ⟨more, rfl⟩ := Nat.exists_eq_add_of_le (Nat.not_lt.mp here)
    rw [← Nat.add_assoc] at jumps ⊢
    exact other more (by omega) jumps

theorem SkipsOnly.cons {instruction : Instruction} {code : List Instruction}
    (one : (program.opcode first).isJump → Liveness.skipsOperand program first)
    (other : SkipsOnly program (first + 1) code) :
    SkipsOnly program first (instruction :: code) := by
  intro place inside jumps
  cases place with
  | zero => exact one jumps
  | succ place =>
      rw [Nat.add_comm place, ← Nat.add_assoc] at jumps ⊢
      exact other place (by simpa using inside) jumps

theorem SkipsOnly.plain {code : List Instruction} (spans : program.Spans first position code)
    (plain : ∀ instruction ∈ code, instruction.opcode.isJump = false) :
    SkipsOnly program first code := by
  intro place inside jumps
  have here := List.getElem?_eq_getElem inside
  rw [Program.opcode, spans.instruction here, plain _ (List.getElem_mem inside)] at jumps
  exact absurd jumps Bool.false_ne_true

theorem SkipsOnly.single {instruction : Instruction}
    (spans : program.Spans first position [instruction])
    (plain : instruction.opcode.isJump = false) : SkipsOnly program first [instruction] :=
  .plain spans fun _ listed => List.mem_singleton.mp listed ▸ plain

variable {whole : List Instruction}

theorem skipsOperand_of_spans (alone : program.IsAlone whole) {op : LogicalOp} {right : List Instruction}
    (spans : program.Spans first position
      ([.copySlot (-4), .jump op.skipper (codeSize right + 8)] ++
        (right ++ [.simple op.opcode .intInt]))) :
    Liveness.skipsOperand program (first + 1) := by
  have stretch : program.Spans first position (.copySlot (-4) ::
      .jump op.skipper (codeSize right + 8) :: (right ++ [.simple op.opcode .intInt])) := spans
  have copied := stretch.head.1
  have jumped := stretch.tail.head
  have combined := stretch.tail.tail.right.head.1
  have landing := stretch.tail.tail.behind
  have bound := stretch.tail.tail.inside
  rw [List.length_append, List.length_singleton, ← Nat.add_assoc] at landing bound
  have count := alone.commandCount
  have skips : Liveness.combiner? (program.opcode (first + 1)) = some op.opcode := by
    rw [Program.opcode, jumped.1]
    cases op <;> rfl
  have follows : Liveness.followsTopCopy program (first + 1) = true := by
    rw [Liveness.followsTopCopy, alone.previous? (by omega)]
    simp [Program.opcode, copied, Instruction.copySlot, Instruction.stackOperand?]
  have leads : Jumps.destination? program (first + 1) =
      some (first + 1 + 1 + right.length + 1) := by
    refine Program.destination?_eq_some alone.increasing ?_ jumped.1 bound ?_
    · cases op <;> rfl
    · rw [jumped.2, landing, codeSize_append]
      simp [Instruction.size, Instruction.copySlot, Instruction.jump, Instruction.simple]
      omega
  have before : program.opcode (first + 1 + 1 + right.length) = op.opcode := by
    rw [Program.opcode, combined]
    rfl
  rw [Liveness.skipsOperand, skips, Option.any_some, follows, Bool.true_and, leads,
    Option.any_some, alone.previous? (by omega), Option.any_some, before]
  simp
  omega

mutual

/-- Every jump in the code of an expression is a short circuit. -/
theorem skipsOnly_code (alone : program.IsAlone whole) (value : IntExpr) {height first position : Nat}
    (spans : program.Spans first position (value.code height)) :
    SkipsOnly program first (value.code height) := by
  cases value with
  | literal value => exact .single spans rfl
  | read slot => exact .single spans rfl
  | unary op operand =>
      rw [code] at spans ⊢
      refine (skipsOnly_code alone operand spans.left).append (.single spans.right ?_)
      cases op <;> rfl
  | binary op left right =>
      rw [code] at spans ⊢
      refine (skipsOnly_code alone left spans.left).append
        ((skipsOnly_code alone right spans.right.left).append (.single spans.right.right ?_))
      cases op <;> rfl
  | logical op left right =>
      rw [code] at spans ⊢
      have skips := skipsOperand_of_spans alone spans.right
      refine (skipsOnly_code alone left spans.left).append ((SkipsOnly.cons (fun jumps => ?_)
        (.cons (fun _ => skips) fun _ inside => absurd inside (Nat.not_lt_zero _))).append
          ((skipsOnly_code alone right spans.right.right.left).append
            (.single spans.right.right.right ?_)))
      · rw [Program.opcode, spans.right.head.1] at jumps
        exact absurd jumps Bool.false_ne_true
      · cases op <;> rfl
  | call action arguments =>
      rw [code] at spans ⊢
      exact (skipsOnly_codes alone arguments spans.left).append (.single spans.right rfl)

theorem skipsOnly_codes (alone : program.IsAlone whole) (values : List IntExpr)
    {height first position : Nat}
    (spans : program.Spans first position (codes height values)) :
    SkipsOnly program first (codes height values) := by
  cases values with
  | nil => exact fun _ inside => absurd inside (Nat.not_lt_zero _)
  | cons value values =>
      rw [codes] at spans ⊢
      exact (skipsOnly_codes alone values spans.left).append (skipsOnly_code alone value spans.right)

end

end Jumps

section Analysis

variable {program : Program} {locals target : Nat} {value : IntExpr}

theorem isInner_assignment (locals target : Nat) (value : IntExpr) :
    ∀ instruction ∈ value.assignment locals target, IsInner instruction := by
  rw [assignment, List.forall_mem_append, List.forall_mem_append]
  refine ⟨?_, isInner_code value locals, ?_⟩
  · intro instruction listed
    rw [(List.mem_replicate.mp listed).2]
    simp [IsInner, Instruction.simple]
  · simp [IsInner, Instruction.assignSlot, Instruction.popSlots]

theorem spans_routine (alone : program.IsAlone (value.routine locals target)) :
    program.Spans 0 Instruction.headerSize (value.assignment locals target) :=
  alone.spans (List.cons_ne_nil _ _)

theorem skipsOnly_assignment (alone : program.IsAlone (value.routine locals target)) :
    SkipsOnly program 0 (value.assignment locals target) := by
  have spans := spans_routine alone
  rw [assignment] at spans ⊢
  refine (SkipsOnly.plain spans.left ?_).append ((skipsOnly_code alone value
    spans.right.left).append (.plain spans.right.right ?_))
  · intro instruction listed
    rw [(List.mem_replicate.mp listed).2]
    rfl
  · simp [Instruction.assignSlot, Instruction.popSlots, Opcode.isJump]

theorem length_assignment (locals target : Nat) (value : IntExpr) :
    (value.assignment locals target).length = locals + (value.code locals).length + 3 := by
  simp [assignment]
  omega

theorem getElem?_routine_last (locals target : Nat) (value : IntExpr) :
    (value.routine locals target)[(value.assignment locals target).length]? =
      some (.simple .ret .void) := by
  rw [routine, List.getElem?_append_right (Nat.le_refl _), Nat.sub_self]
  rfl

/-- Each instruction but the last one belongs to the assignment. -/
theorem opcode_routine (alone : program.IsAlone (value.routine locals target)) {command : Nat}
    (inside : command < program.commandCount) :
    (command < (value.assignment locals target).length ∧ program.opcode command ≠ .ret ∧
      program.opcode command ≠ .saveBase) ∨
    (command = (value.assignment locals target).length ∧ program.opcode command = .ret) := by
  rw [alone.commandCount, routine, List.length_append, List.length_singleton] at inside
  by_cases last : command < (value.assignment locals target).length
  · left
    have here := (spans_routine alone).instruction (List.getElem?_eq_getElem last)
    rw [Nat.zero_add] at here
    rw [Program.opcode, here]
    exact ⟨last, isInner_assignment locals target value _ (List.getElem_mem last)⟩
  · right
    obtain rfl : command = (value.assignment locals target).length := by omega
    rw [Program.opcode, alone.instruction (getElem?_routine_last locals target value)]
    exact ⟨rfl, rfl⟩

/-- Jumps of the routine are short circuits. -/
theorem skipsOperand_routine (alone : program.IsAlone (value.routine locals target)) {command : Nat}
    (inside : command < program.commandCount) (jumps : (program.opcode command).isJump) :
    Liveness.skipsOperand program command := by
  rcases opcode_routine alone inside with ⟨bound, _⟩ | ⟨_, returns⟩
  · have skips := skipsOnly_assignment alone command bound
    rw [Nat.zero_add] at skips
    exact skips jumps
  · rw [returns] at jumps
    exact absurd jumps Bool.false_ne_true

theorem exists_ofProgram_routine (alone : program.IsAlone (value.routine locals target))
    (catalog : ActionCatalog) (settings : Settings) :
    ∃ analysis, Analysis.ofProgram program catalog settings = .ok analysis ∧
      FlowTable.AllLive program analysis.table ∧ analysis.layout = ⟨0, none, none, none, 0⟩ := by
  have conditional : ∀ command < program.commandCount, (program.opcode command).isJump →
      (program.opcode command).isConditional := by
    intro command inside jumps
    have skips := skipsOperand_routine alone inside jumps
    revert jumps skips
    rw [Liveness.skipsOperand]
    cases program.opcode command <;> simp [Liveness.combiner?, Opcode.isJump, Opcode.isConditional]
  have counted : 0 < program.subroutineCount := by
    rw [alone.subroutineCount]
    exact Nat.one_pos
  have land : Jumps.AllLand program := by
    refine Program.allLand fun command inside jumps => ?_
    have skips := skipsOperand_routine alone inside jumps
    cases found : Jumps.destination? program command with
    | some target => exact ⟨target, rfl⟩
    | none =>
        rw [Liveness.skipsOperand, found] at skips
        simp at skips
  have plain : ∀ command < program.commandCount,
      program.opcode command ≠ .call ∧ program.opcode command ≠ .saveBase := by
    intro command inside
    refine ⟨fun calls => ?_, ?_⟩
    · have jumps := conditional command inside (by rw [calls]; rfl)
      rw [calls] at jumps
      exact absurd jumps Bool.false_ne_true
    · rcases opcode_routine alone inside with ⟨_, _, plain⟩ | ⟨_, returns⟩
      · exact plain
      · rw [returns]
        exact Opcode.noConfusion
  have reached : ∀ command < program.commandCount,
      IsReachable program (.resolved program) command := by
    intro command inside
    rw [alone.commandCount] at inside
    refine alone.isReachable (fun other before => ?_) inside
    have bound : other < program.commandCount := by
      rw [alone.commandCount]
      omega
    rcases opcode_routine alone bound with ⟨_, stays, _⟩ | ⟨last, _⟩
    · refine ⟨stays, fun jumps => ?_⟩
      have tests := conditional other bound (by rw [jumps]; rfl)
      rw [jumps] at tests
      exact absurd tests Bool.false_ne_true
    · rw [routine, List.length_append, List.length_singleton] at before
      omega
  obtain ⟨analysis, analyzed, live, layout, _⟩ := Analysis.ofProgram_of_reachable catalog settings
    counted alone.increasing land plain reached (fun _ => trivial)
    fun table calls _ => InferenceInput.keeps_true _ table
  exact ⟨analysis, analyzed, live, layout⟩

end Analysis

end IntExpr
end NwScript
