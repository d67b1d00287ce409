import NwScript.Flow.Positions
import NwScript.Proofs.Numbering

/-!
# Tables between passes

A table in which every instruction is known is given by its rows.  The pass over the positions ends
with such a table exactly if positions increase.
-/

namespace NwScript

namespace FlowPass

@[simp]
theorem runOn_pure {α : Type} (value : α) (table : FlowTable) :
    (pure value : FlowPass α).runOn table = (.ok value, table) := rfl

@[simp]
theorem runOn_throw {α : Type} (fault : Fault) (table : FlowTable) :
    (throw fault : FlowPass α).runOn table = (.error fault, table) := rfl

theorem runOn_bind {α β : Type} (pass : FlowPass α) (next : α → FlowPass β) (table : FlowTable) :
    (pass >>= next).runOn table =
      match pass.runOn table with
      | (.ok value, changed) => (next value).runOn changed
      | (.error fault, changed) => (.error fault, changed) := by
  simp only [runOn, ExceptT.run_bind, StateT.run_bind]
  rcases StateT.run (ExceptT.run pass) table with ⟨_ | _, _⟩ <;> rfl

theorem runOn_bind_ok {α β : Type} {pass : FlowPass α} {next : α → FlowPass β}
    {table changed : FlowTable} {value : α} (done : pass.runOn table = (.ok value, changed)) :
    (pass >>= next).runOn table = (next value).runOn changed := by
  rw [runOn_bind, done]

theorem runOn_bind_error {α β : Type} {pass : FlowPass α} {next : α → FlowPass β}
    {table changed : FlowTable} {fault : Fault}
    (failed : pass.runOn table = (.error fault, changed)) :
    (pass >>= next).runOn table = (.error fault, changed) := by
  rw [runOn_bind, failed]

@[simp]
theorem runOn_modify (change : FlowTable → FlowTable) (table : FlowTable) :
    (modify change : FlowPass Unit).runOn table = (.ok (), change table) := rfl

theorem runOn_apply {change : FlowTable → Except Fault FlowTable} {table changed : FlowTable}
    (done : change table = .ok changed) : (apply change).runOn table = (.ok (), changed) := by
  have opened : (apply change).runOn table = (apply fun _ => change table).runOn table := rfl
  rw [opened, done]
  rfl

theorem runOn_ask {α : Type} {query : FlowTable → Except Fault α} {table : FlowTable} {answer : α}
    (found : query table = .ok answer) : (ask query).runOn table = (.ok answer, table) := by
  have opened : (ask query).runOn table = (ask fun _ => query table).runOn table := rfl
  rw [opened, found]
  rfl

theorem runOn_bind_eq_ok {α β : Type} {pass : FlowPass α} {next : α → FlowPass β}
    {table changed : FlowTable} {value : β} :
    (pass >>= next).runOn table = (.ok value, changed) ↔
      ∃ first middle, pass.runOn table = (.ok first, middle) ∧
        (next first).runOn middle = (.ok value, changed) := by
  cases first : pass.runOn table with
  | mk outcome middle =>
      cases outcome with
      | ok found => simp [runOn_bind_ok first]
      | error fault => simp [runOn_bind_error first]

/-- A pass over some instructions is done when the first is, and then the others. -/
theorem runOn_forM_cons_eq_ok {pass : Nat → FlowPass Unit} {command : Nat} {rest : List Nat}
    {table changed : FlowTable} :
    ((command :: rest).forM pass).runOn table = (.ok (), changed) ↔
      ∃ middle, (pass command).runOn table = (.ok (), middle) ∧
        (rest.forM pass).runOn middle = (.ok (), changed) := by
  have opened : ((command :: rest).forM pass).runOn table =
      (pass command >>= fun _ => rest.forM pass).runOn table := rfl
  rw [opened, runOn_bind_eq_ok]
  constructor
  · rintro ⟨_, middle, first, others⟩
    exact ⟨middle, first, others⟩
  · rintro ⟨middle, first, others⟩
    exact ⟨(), middle, first, others⟩

theorem runOn_forM_nil (pass : Nat → FlowPass Unit) (table : FlowTable) :
    (([] : List Nat).forM pass).runOn table = (.ok (), table) := rfl

/-- A pass over all instructions, of which each leads from one stage to the next. -/
theorem runOn_forM_range {pass : Nat → FlowPass Unit} {count : Nat} (stage : Nat → FlowTable)
    (step : ∀ command < count,
      (pass command).runOn (stage command) = (.ok (), stage (command + 1))) :
    ((List.range count).forM pass).runOn (stage 0) = (.ok (), stage count) := by
  have staged : ∀ length first, first + length = count →
      ((List.range' first length).forM pass).runOn (stage first) = (.ok (), stage count) := by
    intro length
    induction length with
    | zero =>
        rintro first rfl
        exact runOn_forM_nil pass _
    | succ length induction =>
        intro first total
        rw [List.range'_succ, runOn_forM_cons_eq_ok]
        exact ⟨_, step first (by omega), induction (first + 1) (by omega)⟩
  rw [List.range_eq_range']
  exact staged count 0 (Nat.zero_add count)

theorem done_iff {first second : FlowTable} :
    ((.ok (), first) : Except Fault Unit × FlowTable) = (.ok (), second) ↔ second = first := by
  rw [Prod.mk.injEq, and_iff_right rfl, eq_comm]

end FlowPass

namespace FlowTable

/-- The table with given rows and dead jumps for some instructions. -/
def tabulate (size : Nat) (row? : Nat → Option FlowRow) (dead : Nat → List Nat) : FlowTable :=
  ⟨((List.range size).map row?).toArray, ((List.range size).map dead).toArray⟩

/-- The table with given rows for some instructions and no dead jumps. -/
abbrev ofRows (size : Nat) (row? : Nat → Option FlowRow) : FlowTable :=
  tabulate size row? fun _ => []

section Tabulate

variable {size command : Nat} {row? : Nat → Option FlowRow} {dead : Nat → List Nat} {row : FlowRow}

theorem row?_tabulate (size : Nat) (row? : Nat → Option FlowRow) (dead : Nat → List Nat)
    (command : Nat) :
    (tabulate size row? dead).row? command = if command < size then row? command else none := by
  by_cases inside : command < size <;> simp [FlowTable.row?, tabulate, inside]

theorem tabulate_congr {first second : Nat → Option FlowRow} {one other : Nat → List Nat}
    (rows : ∀ command < size, first command = second command)
    (jumps : ∀ command < size, one command = other command) :
    tabulate size first one = tabulate size second other := by
  have rows : (List.range size).map first = (List.range size).map second := by
    rw [List.map_inj_left]
    intro command listed
    exact rows command (List.mem_range.mp listed)
  have jumps : (List.range size).map one = (List.range size).map other := by
    rw [List.map_inj_left]
    intro command listed
    exact jumps command (List.mem_range.mp listed)
  simp only [tabulate, rows, jumps]

theorem ofRows_congr {first second : Nat → Option FlowRow}
    (same : ∀ command < size, first command = second command) :
    ofRows size first = ofRows size second :=
  tabulate_congr same fun _ _ => rfl

theorem setIfInBounds_range {α : Type} (size place : Nat) (entry : Nat → α) (changed : α) :
    ((List.range size).map entry).toArray.setIfInBounds place changed =
      ((List.range size).map (Function.update entry place changed)).toArray := by
  apply Array.ext
  · simp
  · intro other here _
    by_cases same : place = other
    · subst same
      simp
    · simp [same, Function.update_of_ne (Ne.symm same)]

theorem setIfInBounds_tabulate (size : Nat) (row? : Nat → Option FlowRow) (dead : Nat → List Nat)
    (command : Nat) (changed : Option FlowRow) :
    { tabulate size row? dead with
      rows := (tabulate size row? dead).rows.setIfInBounds command changed } =
      tabulate size (Function.update row? command changed) dead := by
  simp only [tabulate, setIfInBounds_range]

theorem row_tabulate (inside : command < size) (known : row? command = some row) :
    (tabulate size row? dead).row command = .ok row := by
  simp [FlowTable.row, row?_tabulate, inside, known]

theorem update_tabulate (change : FlowRow → FlowRow) (inside : command < size)
    (known : row? command = some row) :
    (tabulate size row? dead).update command change =
      .ok (tabulate size (Function.update row? command (some (change row))) dead) := by
  simp only [update, row?_tabulate, inside, known, if_true]
  rw [setIfInBounds_tabulate]

end Tabulate

end FlowTable

namespace Positions

/-- The rows of the first of the instructions, of which only positions are known. -/
def rowBefore (program : Program) (known command : Nat) : Option FlowRow :=
  if command < known then some { position := program.position command } else none

/-- Positions increase over the program. -/
def Increasing (program : Program) : Prop :=
  ∀ ⦃command⦄, command + 1 < program.commandCount →
    program.position command < program.position (command + 1)

theorem Increasing.lt_of_lt {program : Program} (increasing : Increasing program)
    {first last : Nat} (order : first < last) (inside : last < program.commandCount) :
    program.position first < program.position last := by
  induction last with
  | zero => omega
  | succ last induction =>
      have step := increasing inside
      rcases Nat.lt_or_ge first last with before | here
      · have earlier := induction before (by omega)
        omega
      · obtain rfl : first = last := by omega
        exact step

theorem Increasing.le_of_le {program : Program} (increasing : Increasing program)
    {first last : Nat} (order : first ≤ last) (inside : last < program.commandCount) :
    program.position first ≤ program.position last := by
  rcases Nat.lt_or_eq_of_le order with less | rfl
  · exact Nat.le_of_lt (increasing.lt_of_lt less inside)
  · exact Nat.le_refl _

theorem Increasing.injective {program : Program} (increasing : Increasing program)
    {first last : Nat} (first_inside : first < program.commandCount)
    (last_inside : last < program.commandCount)
    (same : program.position first = program.position last) : first = last := by
  rcases Nat.lt_trichotomy first last with less | equal | more
  · have := increasing.lt_of_lt less last_inside
    omega
  · exact equal
  · have := increasing.lt_of_lt more first_inside
    omega

theorem visit_rowBefore (program : Program) (known : Nat) :
    (FlowTable.ofRows program.commandCount (rowBefore program known)).visit known
        (program.position known) =
      FlowTable.ofRows program.commandCount (rowBefore program (known + 1)) := by
  rw [FlowTable.visit, FlowTable.setIfInBounds_tabulate]
  apply FlowTable.ofRows_congr
  intro command _
  by_cases same : command = known
  · subst same
    simp [rowBefore]
  · have order : command < known ↔ command < known + 1 := by omega
    simp only [Function.update_of_ne same, rowBefore, order]

/-- Consecutive instructions are recorded exactly if positions increase from the one before them. -/
theorem runOn_recordFrom {program : Program} {previous : Option Nat} {known count : Nat}
    {table : FlowTable} :
    (recordFrom program previous (List.range' known count)).runOn
        (FlowTable.ofRows program.commandCount (rowBefore program known)) = (.ok (), table) ↔
      (∀ earlier, previous = some earlier → 0 < count → earlier < program.position known) ∧
        (∀ command, known ≤ command → command + 1 < known + count →
          program.position command < program.position (command + 1)) ∧
        table = FlowTable.ofRows program.commandCount (rowBefore program (known + count)) := by
  induction count generalizing known previous with
  | zero =>
      simp only [List.range'_zero, recordFrom, FlowPass.runOn_pure, Prod.mk.injEq, true_and,
        Nat.add_zero, Nat.lt_irrefl, false_implies, implies_true]
      constructor
      · rintro rfl
        exact ⟨fun _ _ _ => by omega, rfl⟩
      · rintro ⟨_, rfl⟩
        rfl
  | succ count induction =>
      have rest : (do
            modify fun table => table.visit known (program.position known)
            recordFrom program (some (program.position known)) (List.range' (known + 1) count) :
              FlowPass Unit).runOn
            (FlowTable.ofRows program.commandCount (rowBefore program known)) =
              (.ok (), table) ↔
          (∀ command, known ≤ command → command + 1 < known + (count + 1) →
            program.position command < program.position (command + 1)) ∧
          table = FlowTable.ofRows program.commandCount
            (rowBefore program (known + (count + 1))) := by
        rw [FlowPass.runOn_bind_ok (FlowPass.runOn_modify _ _), visit_rowBefore, induction]
        rw [show known + 1 + count = known + (count + 1) by omega, ← and_assoc]
        refine and_congr_left fun _ => ⟨?_, ?_⟩
        · rintro ⟨start, later⟩ command low high
          rcases Nat.lt_or_ge known command with behind | here
          · exact later command behind high
          · obtain rfl : command = known := by omega
            exact start _ rfl (by omega)
        · intro increasing
          refine ⟨?_, fun command low high => increasing command (by omega) high⟩
          rintro _ ⟨⟩ filled
          exact increasing known (Nat.le_refl _) (by omega)
      rw [List.range'_succ]
      cases previous with
      | none =>
          have start : ∀ earlier, none = some earlier → 0 < count + 1 →
              earlier < program.position known := by
            rintro _ ⟨⟩
          rw [recordFrom, and_iff_right start, ← rest]
      | some earlier =>
          by_cases order : program.position known ≤ earlier
          · simp only [recordFrom, if_pos order]
            rw [FlowPass.runOn_bind_error (FlowPass.runOn_throw _ _)]
            constructor
            · rintro ⟨⟩
            · rintro ⟨start, _⟩
              have := start earlier rfl (by omega)
              omega
          · have start : ∀ other, some earlier = some other → 0 < count + 1 →
                other < program.position known := by
              rintro _ ⟨⟩ _
              omega
            rw [and_iff_right start, ← rest]
            simp only [recordFrom, if_neg order]

/-- The positions are recorded exactly if they increase. -/
theorem runOn_record {program : Program} {table : FlowTable} :
    (record program).runOn (.blank program.commandCount) = (.ok (), table) ↔
      Increasing program ∧
        table = FlowTable.ofRows program.commandCount
          (rowBefore program program.commandCount) := by
  have blank : FlowTable.blank program.commandCount =
      FlowTable.ofRows program.commandCount (rowBefore program 0) := by
    have unknown : rowBefore program 0 = fun _ => none := by
      funext command
      simp [rowBefore]
    simp [FlowTable.blank, FlowTable.ofRows, FlowTable.tabulate, unknown]
  rw [record, Program.commandNumbers, List.range_eq_range', blank, runOn_recordFrom]
  simp only [reduceCtorEq, false_implies, implies_true, true_and, Nat.zero_add, Nat.zero_le,
    true_implies, Increasing]

end Positions
end NwScript
