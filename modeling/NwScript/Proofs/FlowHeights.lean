import NwScript.Proofs.Liveness

/-!
# Stack heights in a flow table

Type inference writes stack heights into the flow table and nothing else, so everything that was known
before about jumps and liveness stays as it was.
-/

namespace NwScript

namespace FlowRow

/-- A row without its stack height. -/
def flow (row : FlowRow) : FlowRow :=
  { row with height := none }

end FlowRow

namespace FlowTable

/-- Two tables agree but for stack heights. -/
structure SameFlow (table other : FlowTable) : Prop where
  /-- The rows agree. -/
  rows : ∀ command, (other.row? command).map FlowRow.flow = (table.row? command).map FlowRow.flow
  /-- The dead jumps agree. -/
  dead : other.deadOrigins = table.deadOrigins

variable {program : Program} {table other : FlowTable} {command : Nat}

theorem SameFlow.refl (table : FlowTable) : SameFlow table table :=
  ⟨fun _ => rfl, rfl⟩

theorem SameFlow.trans {last : FlowTable} (first : SameFlow table other)
    (second : SameFlow other last) : SameFlow table last :=
  ⟨fun command => (second.rows command).trans (first.rows command), second.dead.trans first.dead⟩

/-- What does not read the height is the same in both tables. -/
theorem SameFlow.map_row {α : Type} (same : SameFlow table other) {view : FlowRow → α}
    (blind : ∀ row, view row.flow = view row) (command : Nat) :
    (other.row command).map view = (table.row command).map view := by
  have agree := same.rows command
  unfold FlowTable.row
  cases here : table.row? command with
  | none =>
      rw [here] at agree
      have missing : other.row? command = none := by simpa using agree
      rw [missing]
  | some row =>
      rw [here] at agree
      obtain ⟨changed, found, equal⟩ := Option.map_eq_some_iff.mp agree
      rw [found]
      show Except.ok (view changed) = Except.ok (view row)
      rw [← blind changed, equal, blind row]

theorem SameFlow.position (same : SameFlow table other) (command : Nat) :
    other.position command = table.position command :=
  same.map_row (fun _ => rfl) command

theorem SameFlow.destination (same : SameFlow table other) (command : Nat) :
    other.destination command = table.destination command :=
  same.map_row (fun _ => rfl) command

theorem SameFlow.state (same : SameFlow table other) (command : Nat) :
    other.state command = table.state command :=
  same.map_row (fun _ => rfl) command

theorem SameFlow.isDead (same : SameFlow table other) (command : Nat) :
    other.isDead command = table.isDead command :=
  same.map_row (fun _ => rfl) command

theorem SameFlow.origins (same : SameFlow table other) (command : Nat) :
    other.origins command = table.origins command :=
  same.map_row (fun _ => rfl) command

/-- Every instruction has a row, and destinations are instructions. -/
def IsKnown (program : Program) (table : FlowTable) : Prop :=
  ∀ command < program.commandCount, ∃ row, table.row? command = some row ∧
    ∀ destination, row.destination = some destination → destination < program.commandCount

theorem IsKnown.of_sameFlow (known : IsKnown program table) (same : SameFlow table other) :
    IsKnown program other := by
  intro command inside
  obtain ⟨row, found, leads⟩ := known command inside
  have agree := same.rows command
  rw [found] at agree
  obtain ⟨changed, here, equal⟩ := Option.map_eq_some_iff.mp agree
  refine ⟨changed, here, fun destination aimed => leads destination ?_⟩
  have kept : changed.flow.destination = row.flow.destination := by rw [equal]
  exact kept.symm.trans aimed

theorem IsKnown.row_eq (known : IsKnown program table) (inside : command < program.commandCount) :
    ∃ row, table.row command = .ok row ∧
      ∀ destination, row.destination = some destination → destination < program.commandCount := by
  obtain ⟨row, found, leads⟩ := known command inside
  exact ⟨row, by simp [FlowTable.row, found], leads⟩

theorem IsKnown.isDead_eq (known : IsKnown program table) (inside : command < program.commandCount) :
    ∃ dead, table.isDead command = .ok dead := by
  obtain ⟨row, found, _⟩ := known.row_eq inside
  exact ⟨_, by rw [FlowTable.isDead, found]; rfl⟩

theorem IsKnown.state_eq (known : IsKnown program table) (inside : command < program.commandCount) :
    ∃ state, table.state command = .ok state := by
  obtain ⟨row, found, _⟩ := known.row_eq inside
  exact ⟨_, by rw [FlowTable.state, found]; rfl⟩

theorem IsKnown.destination_eq (known : IsKnown program table)
    (inside : command < program.commandCount) :
    ∃ destination, table.destination command = .ok destination ∧
      ∀ target, destination = some target → target < program.commandCount := by
  obtain ⟨row, found, leads⟩ := known.row_eq inside
  exact ⟨_, by rw [FlowTable.destination, found]; rfl, leads⟩

/-- A height can be written once there is a row, and changes nothing else. -/
theorem setHeight_eq_ok {row : FlowRow} (found : table.row? command = some row) (height : Int) :
    ∃ changed, table.setHeight command height = .ok changed ∧ SameFlow table changed := by
  let entry : FlowRow := { row with height := some (height.bmod 0x100000000) }
  refine ⟨{ table with rows := table.rows.setIfInBounds command (some entry) }, ?_,
    fun other => ?_, rfl⟩
  · simp only [FlowTable.setHeight, FlowTable.update, found, entry]
  have bound : command < table.rows.size := by
    by_contra outside
    simp [FlowTable.row?, Nat.not_lt.mp outside] at found
  by_cases here : command = other
  · subst here
    rw [found]
    simp [FlowTable.row?, bound, FlowRow.flow, entry]
  · simp [FlowTable.row?, here]

/-- Writing a height changes nothing else. -/
theorem IsKnown.setHeight_eq (known : IsKnown program table)
    (inside : command < program.commandCount) (height : Int) :
    ∃ changed, table.setHeight command height = .ok changed ∧ SameFlow table changed := by
  obtain ⟨row, found, _⟩ := known command inside
  exact setHeight_eq_ok found height

theorem isKnown_markedTable (program : Program) (live : Array Bool) :
    IsKnown program (Liveness.markedTable program live) := by
  intro command inside
  refine ⟨_, (row?_tabulate _ _ _ command).trans (if_pos inside), ?_⟩
  intro destination aimed
  exact Jumps.destination?_lt aimed

end FlowTable
end NwScript
