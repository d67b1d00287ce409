import NwScript.Analysis
import NwScript.Proofs.Sweeps

/-!
# Marks of dead code

The last pass over the flow table always succeeds once jumps are resolved.  It calls an instruction
dead exactly if control cannot reach it, takes out the edges of the dead jumps, and tags the jumps
over the right operand of a logical operator.
-/

namespace NwScript
namespace Liveness

variable {program : Program} {live : Array Bool}

/-- A jump over the right operand of a logical operator, which stands before its destination. -/
def skipsOperand (program : Program) (command : Nat) : Bool :=
  (combiner? (program.opcode command)).any fun combiner =>
    followsTopCopy program command &&
      (Jumps.destination? program command).any fun destination =>
        (program.previous? destination).any fun before =>
          program.opcode before = combiner && command < before

theorem isShortCircuit_eq {table : FlowTable} {command : Nat}
    (resolved : table.destination command = .ok (Jumps.destination? program command)) :
    isShortCircuit program table command = .ok (skipsOperand program command) := by
  unfold isShortCircuit skipsOperand
  cases combiner? (program.opcode command) with
  | none => rfl
  | some combiner =>
      cases followsTopCopy program command with
      | false => rfl
      | true =>
          rw [resolved]
          cases Jumps.destination? program command <;> rfl

/-- The state of an instruction before short circuits are tagged. -/
def markedState (program : Program) (live : Array Bool) (command : Nat) : CodeState :=
  if live.getD command false then .normal
  else if (Jumps.destination? program command).isSome then .deadJump
  else .dead

/-- The jumps that lead to an instruction and are not known to be dead. -/
def keptOrigins (program : Program) (live : Array Bool) (known command : Nat) : List Nat :=
  (List.range program.commandCount).filter fun origin =>
    Jumps.destination? program origin = some command ∧ (known ≤ origin ∨ live.getD origin false)

/-- The rows when the first of the instructions are marked. -/
def markedRow (program : Program) (live : Array Bool) (known command : Nat) : Option FlowRow :=
  some {
    position := program.position command
    destination := Jumps.destination? program command
    state := if command < known then markedState program live command else .normal
    origins := keptOrigins program live known command }

/-- The dead jumps to an instruction among the first of the instructions. -/
def deadOrigins (program : Program) (live : Array Bool) (known command : Nat) : List Nat :=
  (List.range known).filter fun origin =>
    Jumps.destination? program origin = some command ∧ ¬live.getD origin false

/-- The rows when short circuits are tagged among the first of the instructions. -/
def taggedRow (program : Program) (live : Array Bool) (known command : Nat) : Option FlowRow :=
  some {
    position := program.position command
    destination := Jumps.destination? program command
    state :=
      if command < known ∧ live.getD command false ∧ skipsOperand program command then .shortCircuit
      else markedState program live command
    origins := keptOrigins program live program.commandCount command }

theorem destination_tabulate {row? : Nat → Option FlowRow} {command : Nat} {row : FlowRow}
    (dead : Nat → List Nat) (inside : command < program.commandCount) (known : row? command = some row) :
    (FlowTable.tabulate program.commandCount row? dead).destination command =
      .ok row.destination := by
  rw [FlowTable.destination, FlowTable.row_tabulate inside known]
  rfl

theorem killOrigin_tabulate {size destination origin : Nat} {row? : Nat → Option FlowRow}
    {row : FlowRow} (dead : Nat → List Nat) (inside : destination < size)
    (known : row? destination = some row) (listed : origin ∈ row.origins) :
    (FlowTable.tabulate size row? dead).killOrigin destination origin =
      .ok (FlowTable.tabulate size
        (Function.update row? destination
          (some { row with origins := row.origins.erase origin }))
        (Function.update dead destination (dead destination ++ [origin]))) := by
  have jumps : ((List.range size).map dead).toArray.modify destination (· ++ [origin]) =
      ((List.range size).map
        (Function.update dead destination (dead destination ++ [origin]))).toArray := by
    rw [← FlowTable.setIfInBounds_range]
    apply Array.ext
    · simp
    · intro place here there
      by_cases same : destination = place
      · subst same
        simp
      · simp [same]
  simp only [FlowTable.killOrigin, FlowTable.row?_tabulate, inside, known, if_true, listed]
  simp only [FlowTable.tabulate, FlowTable.setIfInBounds_range, jumps]

theorem keptOrigins_succ {known command : Nat}
    (kept : Jumps.destination? program known = some command → live.getD known false) :
    keptOrigins program live (known + 1) command = keptOrigins program live known command := by
  refine List.filter_congr fun origin _ => ?_
  by_cases same : origin = known
  · subst same
    by_cases leads : Jumps.destination? program origin = some command
    · simp [leads, kept leads]
    · simp [leads]
  · have order : known + 1 ≤ origin ↔ known ≤ origin := by omega
    simp only [order]

theorem keptOrigins_erase {known command : Nat}
    (leads : Jumps.destination? program known = some command)
    (unmarked : live.getD known false = false) :
    keptOrigins program live (known + 1) command =
      (keptOrigins program live known command).erase known := by
  unfold keptOrigins
  rw [List.Nodup.erase_eq_filter (List.nodup_range.filter _), List.filter_filter]
  refine List.filter_congr fun origin _ => ?_
  by_cases same : origin = known
  · subst same
    simp [leads, unmarked]
  · have order : known + 1 ≤ origin ↔ known ≤ origin := by omega
    simp [order, same]

theorem deadOrigins_succ {known command : Nat}
    (kept : Jumps.destination? program known = some command → live.getD known false) :
    deadOrigins program live (known + 1) command = deadOrigins program live known command := by
  rw [deadOrigins, List.range_succ, List.filter_append]
  by_cases leads : Jumps.destination? program known = some command
  · simpa [deadOrigins, leads] using kept leads
  · simp [deadOrigins, leads]

theorem deadOrigins_append {known command : Nat}
    (leads : Jumps.destination? program known = some command)
    (unmarked : live.getD known false = false) :
    deadOrigins program live (known + 1) command =
      deadOrigins program live known command ++ [known] := by
  rw [deadOrigins, List.range_succ, List.filter_append]
  simpa [deadOrigins, leads] using unmarked

/-- Marking the next instruction. -/
theorem runOn_markOne {command : Nat} (inside : command < program.commandCount) :
    (markOne live command).runOn (FlowTable.tabulate program.commandCount
        (markedRow program live command) (deadOrigins program live command)) =
      (.ok (), FlowTable.tabulate program.commandCount
        (markedRow program live (command + 1)) (deadOrigins program live (command + 1))) := by
  have step : ∀ other, other < command + 1 ↔ other < command ∨ other = command := by
    intro other
    omega
  have here : markedRow program live command command = some _ := rfl
  unfold markOne
  by_cases marked : live.getD command false = true
  · have kept : ∀ other, Jumps.destination? program command = some other →
        live.getD command false := fun _ _ => marked
    rw [if_pos marked, FlowPass.runOn_apply (FlowTable.update_tabulate _ inside here),
      FlowPass.done_iff]
    refine FlowTable.tabulate_congr (fun other _ => ?_) fun other _ => deadOrigins_succ (kept other)
    by_cases same : other = command
    · subst same
      simp [markedRow, markedState, marked, keptOrigins_succ (kept other)]
    · simp [markedRow, keptOrigins_succ (kept other), step, same]
  have unmarked : live.getD command false = false := by simpa using marked
  rw [if_neg marked, FlowPass.runOn_bind_ok (FlowPass.runOn_ask (destination_tabulate _ inside here))]
  cases leads : Jumps.destination? program command with
  | none =>
      have kept : ∀ other, Jumps.destination? program command = some other →
          live.getD command false := by
        intro other found
        simp [leads] at found
      simp only
      rw [FlowPass.runOn_apply (FlowTable.update_tabulate _ inside here), FlowPass.done_iff]
      refine FlowTable.tabulate_congr (fun other _ => ?_) fun other _ =>
        deadOrigins_succ (kept other)
      by_cases same : other = command
      · subst same
        simp [markedRow, markedState, marked, leads, keptOrigins_succ (kept other)]
      · simp [markedRow, keptOrigins_succ (kept other), step, same]
  | some destination =>
      have there := Jumps.destination?_lt leads
      have aimed : markedRow program live command destination = some _ := rfl
      have listed : command ∈ keptOrigins program live command destination :=
        List.mem_filter.mpr ⟨List.mem_range.mpr inside, by simp [leads]⟩
      have first := killOrigin_tabulate (deadOrigins program live command) there aimed listed
      simp only
      rw [FlowPass.runOn_bind_ok (FlowPass.runOn_apply first)]
      have others : ∀ other, other ≠ destination →
          Jumps.destination? program command = some other → live.getD command false := by
        intro other apart found
        exact absurd (Option.some.inj (found.symm.trans leads)) apart
      have jumps : ∀ other, Function.update (deadOrigins program live command) destination
          (deadOrigins program live command destination ++ [command]) other =
          deadOrigins program live (command + 1) other := by
        intro other
        by_cases there : other = destination
        · subst there
          rw [Function.update_self, deadOrigins_append leads unmarked]
        · rw [Function.update_of_ne there, deadOrigins_succ (others other there)]
      by_cases loop : command = destination
      · subst loop
        rw [FlowPass.runOn_apply (FlowTable.update_tabulate _ inside (Function.update_self _ _ _)),
          FlowPass.done_iff]
        refine FlowTable.tabulate_congr (fun other _ => ?_) fun other _ => (jumps other).symm
        by_cases same : other = command
        · subst same
          simp [markedRow, markedState, marked, leads, keptOrigins_erase leads unmarked]
        · simp [markedRow, keptOrigins_succ (others other same), step, same]
      · rw [FlowPass.runOn_apply (FlowTable.update_tabulate _ inside
          ((Function.update_of_ne loop _ _).trans here)), FlowPass.done_iff]
        refine FlowTable.tabulate_congr (fun other _ => ?_) fun other _ => (jumps other).symm
        by_cases same : other = command
        · subst same
          simp [markedRow, markedState, marked, leads, keptOrigins_succ (others other loop)]
        · rw [Function.update_of_ne same]
          by_cases there : other = destination
          · subst there
            simp [markedRow, keptOrigins_erase leads unmarked, step, same]
          · simp [markedRow, keptOrigins_succ (others other there), step, same, there]

/-- Tagging the next instruction. -/
theorem runOn_tagOne {dead : Nat → List Nat} {command : Nat}
    (inside : command < program.commandCount) :
    (tagOne program live command).runOn
        (FlowTable.tabulate program.commandCount (taggedRow program live command) dead) =
      (.ok (), FlowTable.tabulate program.commandCount
        (taggedRow program live (command + 1)) dead) := by
  have step : ∀ other, other < command + 1 ↔ other < command ∨ other = command := by
    intro other
    omega
  have here : taggedRow program live command command = some _ := rfl
  have same_row : ¬(live.getD command false ∧ skipsOperand program command) →
      taggedRow program live (command + 1) = taggedRow program live command := by
    intro plain
    funext other
    by_cases same : other = command
    · subst same
      rw [taggedRow, taggedRow, if_neg fun all => plain all.2, if_neg fun all => plain all.2]
    · simp [taggedRow, step, same]
  unfold tagOne
  by_cases marked : live.getD command false = true
  swap
  · rw [if_neg marked, FlowPass.runOn_pure, same_row (fun both => marked both.1)]
  have asked := isShortCircuit_eq (destination_tabulate dead inside here)
  rw [if_pos marked, FlowPass.runOn_bind_ok (FlowPass.runOn_ask asked)]
  cases skips : skipsOperand program command with
  | false =>
      rw [same_row (by simp [skips])]
      rfl
  | true =>
      rw [if_pos rfl, FlowPass.runOn_apply (FlowTable.update_tabulate _ inside here),
        FlowPass.done_iff]
      refine FlowTable.tabulate_congr (fun other _ => ?_) fun _ _ => rfl
      by_cases same : other = command
      · subst same
        simp [taggedRow, skips, marked]
      · simp [taggedRow, step, same]

/-- The table when the reachable instructions are known. -/
def markedTable (program : Program) (live : Array Bool) : FlowTable :=
  FlowTable.tabulate program.commandCount (taggedRow program live program.commandCount)
    (deadOrigins program live program.commandCount)

/-- The last pass succeeds. -/
theorem runOn_mark (found : liveSet program (.resolved program) = .ok live) :
    (mark program).runOn (.resolved program) = (.ok (), markedTable program live) := by
  have start : FlowTable.resolved program = FlowTable.tabulate program.commandCount
      (markedRow program live 0) (deadOrigins program live 0) := by
    refine FlowTable.tabulate_congr (fun command inside => ?_) fun command inside => rfl
    simp [Jumps.linkedRow, markedRow, keptOrigins, inside]
  have between : ∀ command < program.commandCount,
      markedRow program live program.commandCount command = taggedRow program live 0 command := by
    intro command inside
    simp [markedRow, taggedRow, inside]
  have marking := FlowPass.runOn_forM_range
    (fun known => FlowTable.tabulate program.commandCount (markedRow program live known)
      (deadOrigins program live known)) fun command inside => runOn_markOne inside
  have tagging := FlowPass.runOn_forM_range
    (fun known => FlowTable.tabulate program.commandCount (taggedRow program live known)
      (deadOrigins program live program.commandCount)) fun command inside => runOn_tagOne inside
  unfold mark
  rw [FlowPass.runOn_bind_ok (FlowPass.runOn_ask found), start, Program.commandNumbers,
    FlowPass.runOn_bind_ok marking, FlowTable.tabulate_congr between fun _ _ => rfl]
  exact tagging

theorem isDead_markedTable {command : Nat} (inside : command < program.commandCount) :
    (markedTable program live).isDead command = .ok (!live.getD command false) := by
  have known : taggedRow program live program.commandCount command = some _ := rfl
  rw [FlowTable.isDead, markedTable, FlowTable.row_tabulate inside known]
  show Except.ok _ = Except.ok _
  congr 1
  unfold markedState
  by_cases marked : live.getD command false = true
  · rw [if_pos marked, marked]
    split <;> rfl
  · have unmarked : live.getD command false = false := by simpa using marked
    rw [if_neg fun all => marked all.2.1, if_neg marked, unmarked]
    split <;> rfl

/-- Once positions and jumps are resolved, the sweeps stop at a set of marks that another sweep does
not change, and an instruction is dead exactly if no chain of steps leads to it. -/
theorem mark_isDead_iff {program : Program} {table : FlowTable}
    (resolved : (do Positions.record program; Jumps.resolve program : FlowPass Unit).runOn
      (.blank program.commandCount) = (.ok (), table)) :
    ∃ live marked, liveSet program table = .ok live ∧ sweep program table live = .ok live ∧
      (mark program).runOn table = (.ok (), marked) ∧
      ∀ command < program.commandCount,
        (live.getD command false = true ↔ IsReachable program table command) ∧
        ∃ dead, marked.isDead command = .ok dead ∧
          (dead = false ↔ IsReachable program table command) := by
  obtain ⟨_, _, rfl⟩ := FlowTable.runOn_resolve_iff.mp resolved
  obtain ⟨live, found, settled, _, reachable⟩ := liveSet_spec program
  refine ⟨live, _, found, settled, runOn_mark found, fun command inside => ?_⟩
  refine ⟨reachable command, _, isDead_markedTable inside, ?_⟩
  rw [Bool.not_eq_false', ← reachable command]
  rfl

/-- A jump over a single instruction. -/
def overOne : Program :=
  .ofNonempty [[⟨13, .jump .jump 8⟩, ⟨19, .simple .nop .void⟩, ⟨21, .simple .ret .void⟩]] (by simp)

theorem overOne_resolved :
    (do Positions.record overOne; Jumps.resolve overOne : FlowPass Unit).runOn
      (.blank overOne.commandCount) = (.ok (), .resolved overOne) := by
  rfl

theorem mark_isDead_iff_overOne :
    ∃ live marked, liveSet overOne (.resolved overOne) = .ok live ∧
      sweep overOne (.resolved overOne) live = .ok live ∧
      (mark overOne).runOn (.resolved overOne) = (.ok (), marked) ∧
      ∀ command < overOne.commandCount,
        (live.getD command false = true ↔ IsReachable overOne (.resolved overOne) command) ∧
        ∃ dead, marked.isDead command = .ok dead ∧
          (dead = false ↔ IsReachable overOne (.resolved overOne) command) :=
  mark_isDead_iff overOne_resolved

end Liveness
end NwScript
