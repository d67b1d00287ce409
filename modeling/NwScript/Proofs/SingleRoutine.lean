import NwScript.Proofs.AnalysisTotal

/-!
# Programs of one subroutine

The instructions of a list, placed one behind the other after the file header, form a program with one
subroutine.  A stretch of its code keeps its instructions and relative positions wherever it stands, so
facts about a piece of code carry over to the program around it.
-/

namespace NwScript

/-- Bytes of some instructions. -/
def codeSize (code : List Instruction) : Nat :=
  (code.map Instruction.size).sum

@[simp]
theorem codeSize_nil : codeSize [] = 0 := rfl

@[simp]
theorem codeSize_cons (instruction : Instruction) (code : List Instruction) :
    codeSize (instruction :: code) = instruction.size + codeSize code := by
  simp [codeSize]

@[simp]
theorem codeSize_append (first second : List Instruction) :
    codeSize (first ++ second) = codeSize first + codeSize second := by
  simp [codeSize]

theorem codeSize_take_lt {code : List Instruction} {first last : Nat} (order : first < last)
    (inside : last ≤ code.length) : codeSize (code.take first) < codeSize (code.take last) := by
  obtain ⟨more, rfl⟩ := Nat.exists_eq_add_of_lt order
  rw [Nat.add_assoc, List.take_add, codeSize_append]
  cases rest : code.drop first with
  | nil =>
      have ended := List.drop_eq_nil_iff.mp rest
      omega
  | cons instruction rest =>
      have positive := instruction.size_pos
      simp only [List.take_succ_cons, codeSize_cons]
      omega

/-- Instructions one behind the other from a position on. -/
def placedFrom (position : Nat) : List Instruction → List Placed
  | [] => []
  | instruction :: code => ⟨position, instruction⟩ :: placedFrom (position + instruction.size) code

@[simp]
theorem length_placedFrom (position : Nat) (code : List Instruction) :
    (placedFrom position code).length = code.length := by
  induction code generalizing position with
  | nil => rfl
  | cons instruction code induction => simp [placedFrom, induction]

theorem getElem?_placedFrom {code : List Instruction} {place : Nat} {instruction : Instruction}
    (position : Nat) (here : code[place]? = some instruction) :
    (placedFrom position code)[place]? =
      some ⟨position + codeSize (code.take place), instruction⟩ := by
  induction code generalizing position place with
  | nil => simp at here
  | cons head code induction =>
      cases place with
      | zero =>
          obtain rfl : head = instruction := by simpa using here
          simp [placedFrom]
      | succ place =>
          have deeper := induction (position + head.size) (by simpa using here)
          simp only [placedFrom, List.getElem?_cons_succ, deeper, List.take_succ_cons,
            codeSize_cons, Nat.add_assoc]

namespace Program

/-- The program whose only subroutine consists of some instructions. -/
def ofCode (code : List Instruction) (filled : code ≠ []) : Program :=
  .ofNonempty [placedFrom Instruction.headerSize code] (by
    intro body listed empty
    rw [List.mem_singleton.mp listed] at empty
    have length := congrArg List.length empty
    rw [length_placedFrom] at length
    exact filled (List.eq_nil_of_length_eq_zero length))

/-- The only subroutine of a program consists of some instructions. -/
def IsAlone (program : Program) (code : List Instruction) : Prop :=
  program.bodies = [placedFrom Instruction.headerSize code]

theorem isAlone_ofCode (code : List Instruction) (filled : code ≠ []) :
    (ofCode code filled).IsAlone code :=
  rfl

section Alone

variable {program : Program} {code : List Instruction} (alone : program.IsAlone code)

include alone

theorem IsAlone.subroutineCount : program.subroutineCount = 1 := by
  rw [subroutineCount_eq, alone, List.length_singleton]

theorem IsAlone.commandCount : program.commandCount = code.length := by
  rw [commandCount_eq, alone]
  simp [offset]

omit alone in
theorem entry_zero (program : Program) : program.entry 0 = 0 := by
  rw [entry_eq (Nat.zero_le _), offset_zero]

theorem IsAlone.body : program.body 0 = List.range code.length := by
  have found : program.bodies[0]? = some (placedFrom Instruction.headerSize code) := by
    rw [alone]
    rfl
  rw [body_eq found, offset_zero, length_placedFrom, List.range_eq_range']

theorem IsAlone.standsAt {command : Nat} {instruction : Instruction}
    (here : code[command]? = some instruction) :
    StandsAt program command 0 command (placedFrom Instruction.headerSize code)
      ⟨Instruction.headerSize + codeSize (code.take command), instruction⟩ where
  holder := by
    rw [alone]
    rfl
  here := getElem?_placedFrom _ here
  number := by rw [offset_zero, Nat.zero_add]

theorem IsAlone.instruction {command : Nat} {instruction : Instruction}
    (here : code[command]? = some instruction) : program.instruction command = instruction :=
  (alone.standsAt here).instruction

theorem IsAlone.position {command : Nat} (inside : command < code.length) :
    program.position command = Instruction.headerSize + codeSize (code.take command) :=
  (alone.standsAt (List.getElem?_eq_getElem inside)).position

theorem IsAlone.owner {command : Nat} (inside : command < code.length) :
    program.owner command = 0 :=
  (alone.standsAt (List.getElem?_eq_getElem inside)).owner

theorem IsAlone.next? {command : Nat} (inside : command + 1 < code.length) :
    program.next? command = some (command + 1) := by
  rw [Program.next?, alone.commandCount, alone.owner inside, alone.owner (by omega)]
  exact if_pos ⟨inside, rfl⟩

theorem IsAlone.previous? {command : Nat} (inside : command + 1 < code.length) :
    program.previous? (command + 1) = some command := by
  rw [Program.previous?, Nat.add_sub_cancel, alone.owner inside, alone.owner (by omega)]
  exact if_pos ⟨Nat.succ_pos _, rfl⟩

theorem IsAlone.increasing : Positions.Increasing program := by
  intro command inside
  rw [alone.commandCount] at inside
  rw [alone.position inside, alone.position (by omega)]
  have less := codeSize_take_lt (Nat.lt_add_one command) (Nat.le_of_lt inside)
  omega

/-- Code without returns and plain jumps before its last instruction is reached as a whole. -/
theorem IsAlone.isReachable (onward : ∀ command, command + 1 < code.length →
    program.opcode command ≠ .ret ∧ program.opcode command ≠ .jump) {command : Nat}
    (inside : command < code.length) : IsReachable program (.resolved program) command := by
  have counted : 0 < program.subroutineCount := by
    rw [alone.subroutineCount]
    exact Nat.one_pos
  refine ⟨counted, ?_⟩
  induction command with
  | zero => rw [entry_zero]
  | succ command induction =>
      obtain ⟨stays, straight⟩ := onward command inside
      exact (induction (by omega)).tail
        (.next (alone.next? inside) stays fun jumps => absurd jumps straight)

end Alone

/-- From an instruction and a position on, a program holds some instructions and at least one
more. -/
structure Spans (program : Program) (first position : Nat) (code : List Instruction) : Prop where
  /-- The instructions. -/
  instruction : ∀ {place : Nat} {instruction : Instruction}, code[place]? = some instruction →
    program.instruction (first + place) = instruction
  /-- The positions of the instructions and of the one behind them. -/
  position : ∀ {place : Nat}, place ≤ code.length →
    program.position (first + place) = position + codeSize (code.take place)
  /-- Another instruction follows. -/
  inside : first + code.length < program.commandCount

section Spans

variable {program : Program} {first position : Nat}

theorem IsAlone.spans {code rest : List Instruction} (alone : program.IsAlone (code ++ rest))
    (filled : rest ≠ []) : program.Spans 0 Instruction.headerSize code where
  instruction := by
    intro place instruction here
    rw [Nat.zero_add]
    have bound := (List.getElem?_eq_some_iff.mp here).1
    exact alone.instruction (by rw [List.getElem?_append_left bound, here])
  position := by
    intro place bound
    have positive := List.length_pos_iff.mpr filled
    rw [Nat.zero_add, alone.position (by rw [List.length_append]; omega), List.take_append,
      Nat.sub_eq_zero_of_le bound, List.take_zero, List.append_nil]
  inside := by
    have positive := List.length_pos_iff.mpr filled
    rw [alone.commandCount, List.length_append]
    omega

theorem Spans.left {code rest : List Instruction} (spans : program.Spans first position (code ++ rest)) :
    program.Spans first position code where
  instruction := by
    intro place instruction here
    have bound := (List.getElem?_eq_some_iff.mp here).1
    exact spans.instruction (by rw [List.getElem?_append_left bound, here])
  position := by
    intro place bound
    rw [spans.position (by rw [List.length_append]; omega), List.take_append,
      Nat.sub_eq_zero_of_le bound, List.take_zero, List.append_nil]
  inside := by
    have bound := spans.inside
    rw [List.length_append] at bound
    omega

theorem Spans.right {code rest : List Instruction}
    (spans : program.Spans first position (code ++ rest)) :
    program.Spans (first + code.length) (position + codeSize code) rest where
  instruction := by
    intro place instruction here
    rw [Nat.add_assoc]
    refine spans.instruction ?_
    rw [List.getElem?_append_right (Nat.le_add_right _ _), Nat.add_sub_cancel_left, here]
  position := by
    intro place bound
    rw [Nat.add_assoc, spans.position (by rw [List.length_append]; omega), List.take_append,
      Nat.add_sub_cancel_left, codeSize_append, List.take_of_length_le (Nat.le_add_right _ _),
      Nat.add_assoc]
  inside := by
    have bound := spans.inside
    rw [List.length_append] at bound
    omega

theorem Spans.head_position {code : List Instruction} (spans : program.Spans first position code) :
    program.position first = position :=
  spans.position (Nat.zero_le _)

theorem Spans.head {instruction : Instruction} {code : List Instruction}
    (spans : program.Spans first position (instruction :: code)) :
    program.instruction first = instruction ∧ program.position first = position := by
  have here : (instruction :: code)[0]? = some instruction := rfl
  have least : 0 ≤ (instruction :: code).length := Nat.zero_le _
  exact ⟨spans.instruction here, spans.position least⟩

theorem Spans.tail {instruction : Instruction} {code : List Instruction}
    (spans : program.Spans first position (instruction :: code)) :
    program.Spans (first + 1) (position + instruction.size) code := by
  have split : program.Spans first position ([instruction] ++ code) := spans
  simpa using split.right

/-- The instruction behind the code. -/
theorem Spans.behind {code : List Instruction} (spans : program.Spans first position code) :
    program.position (first + code.length) = position + codeSize code := by
  rw [spans.position (Nat.le_refl _), List.take_length]

end Spans

section Jumps

variable {program : Program} {command target : Nat}

/-- A jump whose distance is that to an instruction leads there. -/
theorem destination?_eq_some (increasing : Positions.Increasing program) {opcode : Opcode}
    {distance : Int} (jumps : opcode.isJump)
    (here : program.instruction command = .jump opcode distance)
    (inside : target < program.commandCount)
    (lands : (program.position command : Int) + distance = program.position target) :
    Jumps.destination? program command = some target := by
  have offset : (program.instruction command).jumpOffset? = some distance := by
    rw [here, Instruction.jumpOffset?]
    exact if_pos jumps
  rw [Jumps.destination?, Jumps.target?, offset]
  exact (Jumps.commandAt?_eq_some_iff increasing).mpr ⟨inside, lands.symm⟩

/-- Every jump lands if the jumps of the program do. -/
theorem allLand (lands : ∀ command < program.commandCount, (program.opcode command).isJump →
    ∃ target, Jumps.destination? program command = some target) : Jumps.AllLand program := by
  intro command inside aimed
  by_cases jumps : (program.opcode command).isJump
  · obtain ⟨target, found⟩ := lands command inside jumps
    rw [found]
    rfl
  · have offset : (program.instruction command).jumpOffset? = none := if_neg jumps
    rw [Jumps.target?, offset] at aimed
    exact absurd aimed Bool.false_ne_true

end Jumps

end Program

/-- Every instruction of a program is live, and the table knows its jumps and their marks. -/
structure FlowTable.AllLive (program : Program) (table : FlowTable) : Prop where
  /-- Nothing is dead. -/
  alive : ∀ command < program.commandCount, table.isDead command = .ok false
  /-- Jumps are tagged that skip the right operand of a logical operator. -/
  state : ∀ command < program.commandCount, table.state command =
    .ok (if Liveness.skipsOperand program command then .shortCircuit else .normal)
  /-- Destinations are known. -/
  destination : ∀ command < program.commandCount,
    table.destination command = .ok (Jumps.destination? program command)
  /-- Jumps are known where they lead. -/
  origins : ∀ command < program.commandCount, table.origins command =
    .ok ((List.range program.commandCount).filter fun origin =>
      Jumps.destination? program origin = some command)

namespace Liveness

variable {program : Program}

theorem allLive_markedTable {live : Array Bool}
    (all : ∀ command < program.commandCount, live.getD command false = true) :
    FlowTable.AllLive program (markedTable program live) := by
  have known : ∀ command, taggedRow program live program.commandCount command = some _ :=
    fun _ => rfl
  refine ⟨fun command inside => ?_, fun command inside => ?_, fun command inside => ?_,
    fun command inside => ?_⟩
  · rw [isDead_markedTable inside, all command inside]
    rfl
  · rw [FlowTable.state, markedTable, FlowTable.row_tabulate inside (known command)]
    have marked := all command inside
    simp only [markedState, marked, inside, true_and, if_true]
    rfl
  · rw [FlowTable.destination, markedTable, FlowTable.row_tabulate inside (known command)]
    rfl
  · rw [FlowTable.origins, markedTable, FlowTable.row_tabulate inside (known command)]
    refine congrArg Except.ok (List.filter_congr fun origin listed => ?_)
    simp [all origin (List.mem_range.mp listed)]

end Liveness

theorem FlowTable.AllLive.of_sameFlow {program : Program} {table other : FlowTable}
    (live : table.AllLive program) (same : table.SameFlow other) : other.AllLive program where
  alive command inside := (same.isDead command).trans (live.alive command inside)
  state command inside := (same.state command).trans (live.state command inside)
  destination command inside := (same.destination command).trans (live.destination command inside)
  origins command inside := (same.origins command).trans (live.origins command inside)

namespace Analysis

/-- The analysis of a program without calls whose instructions are all reachable. -/
theorem ofProgram_of_reachable {program : Program} (catalog : ActionCatalog) (settings : Settings)
    (nonempty : 0 < program.subroutineCount) (increasing : Positions.Increasing program)
    (land : Jumps.AllLand program)
    (plain : ∀ command < program.commandCount,
      program.opcode command ≠ .call ∧ program.opcode command ≠ .saveBase)
    (reachable : ∀ command < program.commandCount,
      IsReachable program (.resolved program) command)
    {fits : Prototype → Prop} (initial : ∀ flags, fits { flags })
    (kept : ∀ table calls, FlowTable.AllLive program table →
      (inferenceInput program calls catalog settings).Keeps table fits) :
    ∃ analysis, ofProgram program catalog settings = .ok analysis ∧
      FlowTable.AllLive program analysis.table ∧ analysis.layout = ⟨0, none, none, none, 0⟩ ∧
      ∀ sub, fits (analysis.inference.protos.getD sub {}) := by
  obtain ⟨live, found, _, _, marks⟩ := Liveness.liveSet_spec program
  have all : FlowTable.AllLive program (Liveness.markedTable program live) :=
    Liveness.allLive_markedTable fun command inside => (marks command).mpr (reachable command inside)
  obtain ⟨analysis, analyzed, same, detected, _, fitting⟩ := ofProgram_eq_ok catalog settings
    nonempty increasing land found initial fun calls => kept _ calls all
  refine ⟨analysis, analyzed, all.of_sameFlow same, ?_, fitting⟩
  have known := FlowTable.isKnown_markedTable program live
  rw [Layout.detect_plain known analysis.calls nonempty plain] at detected
  exact (Except.ok.inj detected).symm

end Analysis
end NwScript
