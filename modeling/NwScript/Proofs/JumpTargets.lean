import NwScript.Flow.Jumps
import NwScript.Proofs.FlowPasses

/-!
# Targets of jumps

If positions increase, at most one instruction has a given position, and the two bisections find it
whenever there is one.  So the pass over the jumps succeeds exactly if every target is the position of
an instruction, and it then links every jump to that instruction, both ways.
-/

namespace NwScript
namespace Jumps

/-- The byte position that an instruction jumps to. -/
def target? (program : Program) (command : Nat) : Option Int :=
  (program.instruction command).jumpOffset?.map ((program.position command : Int) + ·)

/-- The instruction at a byte position. -/
def commandAt? (program : Program) (target : Int) : Option Nat :=
  program.commandNumbers.find? fun command => (program.position command : Int) = target

/-- The instruction that an instruction jumps to. -/
def destination? (program : Program) (command : Nat) : Option Nat :=
  (target? program command).bind (commandAt? program)

/-- Every target of a jump is the position of an instruction. -/
def AllLand (program : Program) : Prop :=
  ∀ command < program.commandCount, (target? program command).isSome →
    (destination? program command).isSome

section Bisection

variable {program : Program} {table : FlowTable} {target : Int}

theorem find?_eq_some_of_unique {values : List Nat} {test : Nat → Bool} {value : Nat}
    (listed : value ∈ values) (passes : test value = true)
    (unique : ∀ other ∈ values, test other = true → other = value) :
    values.find? test = some value := by
  cases found : values.find? test with
  | none => exact absurd passes (List.find?_eq_none.mp found value listed)
  | some other =>
      rw [unique other (List.mem_of_find?_eq_some found) (List.find?_some found)]

theorem commandAt?_eq_some_iff (increasing : Positions.Increasing program) {command : Nat} :
    commandAt? program target = some command ↔
      command < program.commandCount ∧ (program.position command : Int) = target := by
  constructor
  · intro found
    have listed := List.mem_of_find?_eq_some found
    have hit := List.find?_some found
    exact ⟨List.mem_range.mp listed, by simpa using hit⟩
  · rintro ⟨inside, hit⟩
    refine find?_eq_some_of_unique (List.mem_range.mpr inside) (by simpa using hit) ?_
    intro other listed same
    have equal : (program.position other : Int) = target := by simpa using same
    exact increasing.injective (List.mem_range.mp listed) inside (by omega)

theorem length_lt_halvings (length : Nat) : length < 2 ^ halvings length := by
  unfold halvings
  split
  · omega
  · have bound : length < 2 ^ (length.log2 + 1) := Nat.lt_log2_self
    rw [Nat.pow_succ]
    omega

/-- The bisection among instructions tests the whole interval. -/
theorem findCommand_eq (increasing : Positions.Increasing program)
    (positions : ∀ command < program.commandCount,
      table.position command = .ok (program.position command))
    {first count : Nat} (inside : first + count ≤ program.commandCount)
    {budget low high : Nat} (budgeted : high - low < 2 ^ budget) (bounded : high ≤ count) :
    findCommand table (List.range' first count).toArray target budget low high =
      .ok ((List.range' (first + low) (high - low)).find? fun command =>
        (program.position command : Int) = target) := by
  induction budget generalizing low high with
  | zero =>
      have empty : high - low = 0 := by omega
      simp [findCommand, empty]
  | succ budget induction =>
      by_cases order : low < high
      swap
      · have empty : high - low = 0 := by omega
        simp [findCommand, order, empty]
      obtain ⟨middle, half⟩ : ∃ middle, middle = (low + high) / 2 := ⟨_, rfl⟩
      have there : (List.range' first count).toArray.getD middle 0 = first + middle := by
        simp [Array.getD_eq_getD_getElem?, show middle < count by omega]
      have known := positions (first + middle) (by omega)
      rw [Nat.pow_succ] at budgeted
      simp only [findCommand, if_pos order, ← half, there, known, bind, Except.bind]
      by_cases hit : (program.position (first + middle) : Int) = target
      · have listed : first + middle ∈ List.range' (first + low) (high - low) := by
          rw [List.mem_range'_1]
          omega
        rw [if_pos hit, find?_eq_some_of_unique listed (by simpa using hit)]
        · rfl
        intro other listed same
        rw [List.mem_range'_1] at listed
        have equal : (program.position other : Int) = target := by simpa using same
        exact increasing.injective (by omega) (by omega) (by omega)
      rw [if_neg hit]
      split
      · rename_i below
        have skip : (List.range' (first + low) (middle + 1 - low)).find? (fun command =>
            (program.position command : Int) = target) = none := by
          rw [List.find?_eq_none]
          intro other listed
          rw [List.mem_range'_1] at listed
          have before : program.position other ≤ program.position (first + middle) :=
            increasing.le_of_le (by omega) (by omega)
          simp only [decide_eq_true_eq]
          omega
        rw [induction (by omega) bounded]
        have whole : high - low = (middle + 1 - low) + (high - (middle + 1)) := by omega
        rw [whole, ← List.range'_append_1, List.find?_append, skip, Option.none_or]
        rw [show first + low + (middle + 1 - low) = first + (middle + 1) by omega]
      · rename_i above
        have skip : (List.range' (first + middle) (high - middle)).find? (fun command =>
            (program.position command : Int) = target) = none := by
          rw [List.find?_eq_none]
          intro other listed
          rw [List.mem_range'_1] at listed
          have behind : program.position (first + middle) ≤ program.position other :=
            increasing.le_of_le (by omega) (by omega)
          simp only [decide_eq_true_eq]
          omega
        rw [induction (by omega) (by omega)]
        have whole : high - low = (middle - low) + (high - middle) := by omega
        rw [whole, ← List.range'_append_1, List.find?_append]
        rw [show first + low + (middle - low) = first + middle by omega, skip, Option.or_none]

/-- The bisection among subroutines stops at the last one that does not start behind the target. -/
theorem findSub_eq (increasing : Positions.Increasing program)
    (positions : ∀ command < program.commandCount,
      table.position command = .ok (program.position command))
    {budget low high : Nat} (budgeted : high - low ≤ 2 ^ budget) (nonempty : low < high)
    (bounded : high ≤ program.subroutineCount) :
    ∃ sub, findSub program table target budget low high = .ok sub ∧ low ≤ sub ∧ sub < high ∧
      (sub = low ∨ (program.position (program.entry sub) : Int) ≤ target) ∧
      (∀ later, sub < later → later < high →
        target < (program.position (program.entry later) : Int)) := by
  induction budget generalizing low high with
  | zero =>
      refine ⟨low, rfl, Nat.le_refl low, nonempty, .inl rfl, fun later behind below => ?_⟩
      omega
  | succ budget induction =>
      by_cases order : low + 1 < high
      swap
      · refine ⟨low, by simp [findSub, order], Nat.le_refl low, nonempty, .inl rfl, ?_⟩
        intro later behind below
        omega
      obtain ⟨middle, half⟩ : ∃ middle, middle = (low + high) / 2 := ⟨_, rfl⟩
      have known := positions (program.entry middle) (Program.entry_lt (by omega))
      rw [Nat.pow_succ] at budgeted
      simp only [findSub, if_pos order, ← half, known, bind, Except.bind]
      split
      · rename_i below
        obtain ⟨sub, found, least, most, taken, behind⟩ :=
          induction (show high - middle ≤ 2 ^ budget by omega) (by omega) bounded
        refine ⟨sub, found, by omega, most, .inr ?_, behind⟩
        rcases taken with rfl | before
        · exact below
        · exact before
      · rename_i above
        obtain ⟨sub, found, least, most, taken, behind⟩ :=
          induction (show middle - low ≤ 2 ^ budget by omega) (by omega) (by omega)
        refine ⟨sub, found, least, by omega, taken, fun later after _ => ?_⟩
        rcases Nat.lt_or_ge later middle with inner | outer
        · exact behind later after inner
        · have start : program.position (program.entry middle) ≤
              program.position (program.entry later) :=
            increasing.le_of_le (Program.entry_mono outer (by omega))
              (Program.entry_lt (by omega))
          omega

/-- The two bisections find the instruction at the target. -/
theorem find_eq (increasing : Positions.Increasing program)
    (positions : ∀ command < program.commandCount,
      table.position command = .ok (program.position command)) :
    find program table target = .ok (commandAt? program target) := by
  unfold find
  split
  · rename_i trivially
    have nowhere : commandAt? program target = none := by
      refine List.find?_eq_none.mpr fun command listed => ?_
      have inside := List.mem_range.mp listed
      have owned := Program.owner_lt inside
      simp only [decide_eq_true_eq]
      omega
    rw [nowhere]
  rename_i proper
  have nonempty : 0 < program.subroutineCount := by omega
  have budgeted : program.subroutineCount - 0 ≤ 2 ^ halvings program.subroutineCount :=
    Nat.le_of_lt (length_lt_halvings _)
  obtain ⟨sub, found, _, inside, taken, behind⟩ :
      ∃ sub, findSub program table target _ 0 program.subroutineCount = .ok sub ∧ _ :=
    findSub_eq increasing positions budgeted nonempty (Nat.le_refl _)
  obtain ⟨count, listed, fits⟩ := Program.exists_body_eq inside
  have among : findCommand table _ target (halvings count) 0 count = .ok _ :=
    findCommand_eq increasing positions fits (length_lt_halvings count) (Nat.le_refl count)
  simp only [found, bind, Except.bind, listed, List.size_toArray, List.length_range', among]
  rw [Nat.add_zero, Nat.sub_zero, ← listed]
  congr 1
  cases sought : commandAt? program target with
  | none =>
      rw [List.find?_eq_none]
      intro command member
      have there := (Program.mem_body_iff inside).mp member
      exact List.find?_eq_none.mp sought command (List.mem_range.mpr there.1)
  | some command =>
      obtain ⟨bound, hit⟩ := (commandAt?_eq_some_iff increasing).mp sought
      have member : command ∈ program.body sub := by
        rw [Program.mem_body_iff inside]
        refine ⟨bound, ?_⟩
        rcases Nat.lt_trichotomy (program.owner command) sub with less | same | more
        · have apart := increasing.lt_of_lt (Program.lt_entry_of_owner_lt bound less inside)
            (Program.entry_lt inside)
          omega
        · exact same
        · have apart := behind _ more (Program.owner_lt bound)
          have start := increasing.le_of_le (Program.entry_owner_le bound) bound
          omega
      refine find?_eq_some_of_unique member (by simpa using hit) fun other listed same => ?_
      have there := (Program.mem_body_iff inside).mp listed
      have equal : (program.position other : Int) = target := by simpa using same
      exact increasing.injective there.1 bound (by omega)

end Bisection

/-- The rows when the first of the instructions are linked. -/
def linkedRow (program : Program) (linked command : Nat) : Option FlowRow :=
  some {
    position := program.position command
    destination := if command < linked then destination? program command else none
    origins := (List.range linked).filter fun origin =>
      destination? program origin = some command }

variable {program : Program}

theorem position_linkedRow (program : Program) (linked command : Nat)
    (inside : command < program.commandCount) :
    (FlowTable.ofRows program.commandCount (linkedRow program linked)).position command =
      .ok (program.position command) := by
  simp only [FlowTable.position,
    FlowTable.row_tabulate inside (show linkedRow program linked command = some _ from rfl)]
  rfl

theorem destination?_lt {command destination : Nat}
    (found : destination? program command = some destination) :
    destination < program.commandCount := by
  obtain ⟨target, _, sought⟩ := Option.bind_eq_some_iff.mp found
  exact List.mem_range.mp (List.mem_of_find?_eq_some sought)

theorem linkedRow_succ_of_none {linked : Nat} (none : destination? program linked = none)
    (command : Nat) : linkedRow program (linked + 1) command = linkedRow program linked command := by
  have step : command < linked + 1 ↔ command < linked ∨ command = linked := by omega
  by_cases same : command = linked
  · subst same
    simp [linkedRow, List.range_succ, none]
  · simp [linkedRow, List.range_succ, none, step, same]

/-- Linking an instruction writes its destination, and then the row of the destination. -/
theorem linkedRow_succ_of_some {linked destination : Nat}
    (found : destination? program linked = some destination) :
    let here : FlowRow :=
      { position := program.position linked, destination := some destination
        origins := (List.range linked).filter fun origin =>
          destination? program origin = some linked }
    ∃ there, Function.update (linkedRow program linked) linked (some here) destination =
        some there ∧ linked ∉ there.origins ∧
      Function.update (Function.update (linkedRow program linked) linked (some here)) destination
        (some { there with origins := there.origins ++ [linked] }) =
          linkedRow program (linked + 1) := by
  intro here
  have step : ∀ command, command < linked + 1 ↔ command < linked ∨ command = linked := by
    intro command
    omega
  by_cases loop : destination = linked
  · subst loop
    refine ⟨here, by simp, by simp [here], ?_⟩
    funext command
    by_cases same : command = destination
    · subst same
      simp [here, linkedRow, List.range_succ, found]
    · simp [linkedRow, List.range_succ, found, same, step, Ne.symm same]
  · refine ⟨_, Function.update_of_ne loop _ _, by simp, ?_⟩
    funext command
    by_cases there : command = destination
    · subst there
      simp [linkedRow, List.range_succ, found, step, loop]
    · rw [Function.update_of_ne there]
      by_cases same : command = linked
      · subst same
        simp [here, linkedRow, List.range_succ, found, loop]
      · simp [linkedRow, List.range_succ, found, step, same, Ne.symm there]

/-- Linking the next instruction succeeds exactly if it does not jump or its target is found. -/
theorem runOn_resolveOne (increasing : Positions.Increasing program) {linked : Nat}
    (inside : linked < program.commandCount) {table : FlowTable} :
    (resolveOne program linked).runOn
        (FlowTable.ofRows program.commandCount (linkedRow program linked)) = (.ok (), table) ↔
      ((target? program linked).isSome → (destination? program linked).isSome) ∧
        table = FlowTable.ofRows program.commandCount (linkedRow program (linked + 1)) := by
  have positions := position_linkedRow program linked
  unfold resolveOne
  cases jumps : (program.instruction linked).jumpOffset? with
  | none =>
      have nowhere : target? program linked = none := by simp [target?, jumps]
      have unlinked : destination? program linked = none := by simp [destination?, nowhere]
      rw [nowhere, FlowTable.ofRows_congr fun command _ => linkedRow_succ_of_none unlinked command]
      rw [FlowPass.runOn_pure, FlowPass.done_iff, and_iff_right (by simp)]
  | some offset =>
      have aimed : target? program linked = some ((program.position linked : Int) + offset) := by
        simp [target?, jumps]
      simp only
      rw [FlowPass.runOn_bind_ok (FlowPass.runOn_ask (positions linked inside))]
      rw [FlowPass.runOn_bind_ok (FlowPass.runOn_ask (find_eq increasing positions))]
      rw [show commandAt? program ((program.position linked : Int) + offset) =
        destination? program linked by simp [destination?, aimed]]
      cases found : destination? program linked with
      | none => simp [aimed]
      | some destination =>
          obtain ⟨there, known, fresh, updated⟩ := linkedRow_succ_of_some found
          have first : (FlowTable.ofRows program.commandCount
              (linkedRow program linked)).setDestination linked destination = .ok _ :=
            FlowTable.update_tabulate (fun row => { row with destination := some destination })
              inside (show linkedRow program linked linked = some _ from rfl)
          have second : (FlowTable.ofRows program.commandCount
              (Function.update (linkedRow program linked) linked _)).addOrigin destination
                linked = .ok _ :=
            FlowTable.update_tabulate (fun row =>
              if linked ∈ row.origins then row
              else { row with origins := row.origins ++ [linked] }) (destination?_lt found) known
          simp only [if_neg fresh, updated] at second
          simp only
          rw [FlowPass.runOn_bind_ok (FlowPass.runOn_apply first)]
          rw [FlowPass.runOn_apply second, FlowPass.done_iff, and_iff_right (by simp)]

/-- Before the first jump is linked, a table holds positions alone. -/
theorem ofRows_rowBefore (program : Program) :
    FlowTable.ofRows program.commandCount (Positions.rowBefore program program.commandCount) =
      FlowTable.ofRows program.commandCount (linkedRow program 0) := by
  refine FlowTable.ofRows_congr fun command inside => ?_
  simp [Positions.rowBefore, linkedRow, inside]

/-- The jumps are resolved exactly if every target is found. -/
theorem runOn_resolve (increasing : Positions.Increasing program) {table : FlowTable} :
    (resolve program).runOn
        (FlowTable.ofRows program.commandCount
          (Positions.rowBefore program program.commandCount)) = (.ok (), table) ↔
      AllLand program ∧
        table = FlowTable.ofRows program.commandCount
          (linkedRow program program.commandCount) := by
  have linking : ∀ count linked, linked + count = program.commandCount →
      (((List.range' linked count).forM (resolveOne program)).runOn
          (FlowTable.ofRows program.commandCount (linkedRow program linked)) = (.ok (), table) ↔
        (∀ command, linked ≤ command → command < program.commandCount →
          (target? program command).isSome → (destination? program command).isSome) ∧
        table = FlowTable.ofRows program.commandCount
          (linkedRow program program.commandCount)) := by
    intro count
    induction count with
    | zero =>
        rintro linked rfl
        have none_left : ∀ command, program.commandCount ≤ command →
            command < program.commandCount →
            (target? program command).isSome → (destination? program command).isSome := by
          intro command low high
          omega
        rw [List.range'_zero, FlowPass.runOn_forM_nil, FlowPass.done_iff]
        exact (and_iff_right none_left).symm
    | succ count induction =>
        intro linked bound
        rw [List.range'_succ, FlowPass.runOn_forM_cons_eq_ok]
        constructor
        · rintro ⟨middle, first, rest⟩
          obtain ⟨lands, rfl⟩ := (runOn_resolveOne increasing (by omega)).mp first
          obtain ⟨later, rfl⟩ := (induction (linked + 1) (by omega)).mp rest
          refine ⟨fun command low high => ?_, rfl⟩
          rcases Nat.lt_or_ge linked command with behind | here
          · exact later command behind high
          · obtain rfl : command = linked := by omega
            exact lands
        · rintro ⟨all, rfl⟩
          have lands := all linked (Nat.le_refl _) (by omega)
          refine ⟨_, (runOn_resolveOne increasing (by omega)).mpr ⟨lands, rfl⟩, ?_⟩
          refine (induction (linked + 1) (by omega)).mpr ⟨fun command low high => ?_, rfl⟩
          exact all command (by omega) high
  have start := linking program.commandCount 0 (Nat.zero_add _)
  rw [resolve, Program.commandNumbers, List.range_eq_range', ofRows_rowBefore, start]
  simp [AllLand]

end Jumps

namespace FlowTable

/-- The table when positions and jumps are known. -/
def resolved (program : Program) : FlowTable :=
  ofRows program.commandCount (Jumps.linkedRow program program.commandCount)

/-- The first two passes succeed exactly if positions increase and every target is found. -/
theorem runOn_resolve_iff {program : Program} {table : FlowTable} :
    (do Positions.record program; Jumps.resolve program : FlowPass Unit).runOn
        (.blank program.commandCount) = (.ok (), table) ↔
      Positions.Increasing program ∧ Jumps.AllLand program ∧ table = resolved program := by
  rw [FlowPass.runOn_bind_eq_ok]
  constructor
  · rintro ⟨_, middle, first, second⟩
    obtain ⟨increasing, rfl⟩ := Positions.runOn_record.mp first
    obtain ⟨land, rfl⟩ := (Jumps.runOn_resolve increasing).mp second
    exact ⟨increasing, land, rfl⟩
  · rintro ⟨increasing, land, rfl⟩
    exact ⟨(), _, Positions.runOn_record.mpr ⟨increasing, rfl⟩,
      (Jumps.runOn_resolve increasing).mpr ⟨land, rfl⟩⟩

variable {program : Program} {command : Nat}

theorem row_resolved (inside : command < program.commandCount) :
    (resolved program).row command = .ok
      { position := program.position command
        destination := Jumps.destination? program command
        origins := (List.range program.commandCount).filter fun origin =>
          Jumps.destination? program origin = some command } := by
  refine row_tabulate inside ?_
  simp only [Jumps.linkedRow, inside, if_true]

theorem destination_resolved (inside : command < program.commandCount) :
    (resolved program).destination command = .ok (Jumps.destination? program command) := by
  rw [FlowTable.destination, row_resolved inside]
  rfl

theorem origins_resolved (inside : command < program.commandCount) :
    (resolved program).origins command =
      .ok ((List.range program.commandCount).filter fun origin =>
        Jumps.destination? program origin = some command) := by
  rw [FlowTable.origins, row_resolved inside]
  rfl

end FlowTable
end NwScript
