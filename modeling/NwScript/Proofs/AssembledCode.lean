import NwScript.Proofs.LaidOutCode

/-!
# Assembled code

An assembler is used by a list of operations.  What is emitted and how it is divided into subroutines
can be read off the list, and a label stands where the last operation that places it left it.
Assembling succeeds exactly if every label that a jump uses stands before an emitted instruction and no
subroutine is empty.  The passes over positions and jumps then succeed, and every jump leads to the
instruction that its label stands before.
-/

namespace NwScript
namespace Assembler

/-- A use of an assembler. -/
inductive Operation where
  /-- Introduce the next label. -/
  | introduce
  /-- Let a label stand before the next instruction. -/
  | place (label : Nat)
  /-- Begin a subroutine. -/
  | subroutine
  /-- Begin a subroutine and let a label stand before it. -/
  | subroutineAt (label : Nat)
  /-- Emit an instruction with all its operands. -/
  | emit (instruction : Instruction)
  /-- Emit a jump to a label. -/
  | jump (opcode : Opcode) (label : Nat)
  deriving DecidableEq, Repr, Inhabited

namespace Operation

/-- What is emitted. -/
def emitted? : Operation → Option Pending
  | emit instruction => some (.fixed instruction)
  | jump opcode label => some (.jump opcode label)
  | _ => none

/-- The label that is placed. -/
def placed? : Operation → Option Nat
  | place label | subroutineAt label => some label
  | _ => none

/-- Labels that are introduced. -/
def introduced : Operation → Nat
  | introduce => 1
  | _ => 0

/-- Labels are introduced before they are used, an instruction with all its operands is no jump, and
a jump has the opcode of one. -/
def IsAdmissible (known : Nat) : Operation → Prop
  | introduce | subroutine => True
  | place label | subroutineAt label => label < known
  | emit instruction => instruction.jumpOffset? = none
  | jump opcode label => opcode.isJump = true ∧ label < known

instance (known : Nat) (operation : Operation) : Decidable (operation.IsAdmissible known) := by
  cases operation <;> unfold IsAdmissible <;> infer_instance

end Operation

/-- Use an assembler. -/
def apply (assembler : Assembler) : Operation → Assembler
  | .introduce => assembler.label.1
  | .place label => assembler.place label
  | .subroutine => assembler.subroutine
  | .subroutineAt label => assembler.subroutineAt label
  | .emit instruction => assembler.emit instruction
  | .jump opcode label => assembler.jump opcode label

/-- The assembler after some operations. -/
def run (operations : List Operation) : Assembler :=
  operations.foldl apply empty

/-- Operations that are admissible one after another. -/
def Admissible (known : Nat) : List Operation → Prop
  | [] => True
  | operation :: rest =>
      operation.IsAdmissible known ∧ Admissible (known + operation.introduced) rest

instance Admissible.decidable (known : Nat) :
    (operations : List Operation) → Decidable (Admissible known operations)
  | [] => .isTrue trivial
  | operation :: rest =>
      have := Admissible.decidable (known + operation.introduced) rest
      inferInstanceAs
        (Decidable (operation.IsAdmissible known ∧ Admissible (known + operation.introduced) rest))

/-- What is emitted, in order. -/
def emissions (operations : List Operation) : List Pending :=
  operations.filterMap Operation.emitted?

/-- What is emitted before a subroutine is begun, and in each subroutine that is begun. -/
def pieces : List Operation → List Pending × List (List Pending)
  | [] => ([], [])
  | .subroutine :: rest | .subroutineAt _ :: rest => ([], (pieces rest).1 :: (pieces rest).2)
  | .emit instruction :: rest => (.fixed instruction :: (pieces rest).1, (pieces rest).2)
  | .jump opcode label :: rest => (.jump opcode label :: (pieces rest).1, (pieces rest).2)
  | .introduce :: rest | .place _ :: rest => pieces rest

/-- What is emitted in each subroutine.  Instructions before the first that is begun have one of
their own. -/
def divided (operations : List Operation) : List (List Pending) :=
  match pieces operations with
  | ([], begun) => begun
  | (front, begun) => front :: begun

/-- The last operation that places a label stands before the emitted instruction with a number. -/
def LastPlaced (operations : List Operation) (label index : Nat) : Prop :=
  ∃ before operation after, operations = before ++ operation :: after ∧
    operation.placed? = some label ∧ (∀ later ∈ after, later.placed? ≠ some label) ∧
    (emissions before).length = index

section Operations

variable {operations : List Operation} {operation : Operation} {assembler : Assembler}

theorem run_append_singleton (operations : List Operation) (operation : Operation) :
    run (operations ++ [operation]) = (run operations).apply operation := by
  rw [run, List.foldl_append]
  rfl

theorem emissions_append (first second : List Operation) :
    emissions (first ++ second) = emissions first ++ emissions second :=
  List.filterMap_append

theorem admissible_append {known : Nat} {first second : List Operation}
    (admissible : Admissible known (first ++ second)) :
    Admissible known first ∧
      Admissible (known + (first.map Operation.introduced).sum) second := by
  induction first generalizing known with
  | nil => exact ⟨trivial, admissible⟩
  | cons operation first induction =>
      obtain ⟨here, later⟩ := admissible
      obtain ⟨front, back⟩ := induction later
      refine ⟨⟨here, front⟩, ?_⟩
      rwa [List.map_cons, List.sum_cons, ← Nat.add_assoc]

theorem emitted_run (operations : List Operation) :
    (run operations).emitted = (emissions operations).length := by
  induction operations using List.reverseRecOn with
  | nil => rfl
  | append_singleton operations operation induction =>
      rw [run_append_singleton, emissions_append, List.length_append, ← induction]
      cases operation <;> rfl

/-- Labels are known once they are introduced. -/
theorem size_labels_run (operations : List Operation) :
    (run operations).labels.size = (operations.map Operation.introduced).sum := by
  induction operations using List.reverseRecOn with
  | nil => rfl
  | append_singleton operations operation induction =>
      rw [run_append_singleton, List.map_append, List.sum_append, ← induction]
      cases operation <;>
        simp [apply, label, place, subroutine, subroutineAt, emit, jump, push, Operation.introduced]

/-- The last operation decides on the label that it places and on no other. -/
theorem lastPlaced_append_singleton {label index : Nat} :
    LastPlaced (operations ++ [operation]) label index ↔
      if operation.placed? = some label then (emissions operations).length = index
      else LastPlaced operations label index := by
  constructor
  · rintro ⟨before, placing, after, same, places, last, counted⟩
    rcases List.eq_nil_or_concat after with rfl | ⟨front, final, rfl⟩
    · obtain ⟨rfl, rfl⟩ : operations = before ∧ operation = placing := by simpa using same
      rwa [if_pos places]
    · rw [List.concat_eq_append, ← List.cons_append, ← List.append_assoc] at same
      obtain ⟨rfl, rfl⟩ := List.append_singleton_inj.mp same
      rw [if_neg (last operation (by simp))]
      exact ⟨before, placing, front, rfl, places, fun later listed => last later (by simp [listed]),
        counted⟩
  · split
    · rename_i places
      intro counted
      exact ⟨operations, operation, [], rfl, places, by simp, counted⟩
    · rename_i other
      rintro ⟨before, placing, after, rfl, places, last, counted⟩
      refine ⟨before, placing, after ++ [operation], by simp, places, fun later listed => ?_, counted⟩
      rcases List.mem_append.mp listed with earlier | final
      · exact last later earlier
      · rwa [List.mem_singleton.mp final]

/-- A label stands before the instruction that it was last placed before. -/
theorem labels_run (admissible : Admissible 0 operations) {label index : Nat} :
    (run operations).labels[label]? = some (some index) ↔ LastPlaced operations label index := by
  induction operations using List.reverseRecOn with
  | nil =>
      refine ⟨fun found => ?_, ?_⟩
      · simp [run, empty] at found
      · rintro ⟨before, placing, after, same, -⟩
        simp at same
  | append_singleton operations operation induction =>
      obtain ⟨earlier, last, -⟩ := admissible_append admissible
      rw [Nat.zero_add, ← size_labels_run] at last
      -- placing a known label writes its entry, and no other operation changes an entry
      have placed : ∀ assembler : Assembler, assembler.labels = (run operations).labels →
          assembler.emitted = (run operations).emitted →
          ∀ other, other < (run operations).labels.size →
            ((assembler.place other).labels[label]? = some (some index) ↔
              if some other = some label then (emissions operations).length = index
              else LastPlaced operations label index) := by
        rintro ⟨_, _, _⟩ rfl rfl other known
        rw [place, ← emitted_run, ← induction earlier]
        by_cases same : other = label
        · subst same
          simp [known]
        · simp [same]
      rw [run_append_singleton, lastPlaced_append_singleton]
      cases operation with
      | introduce =>
          rw [if_neg (by simp [Operation.placed?]), ← induction earlier]
          simp only [apply, Assembler.label, Array.getElem?_push]
          split
          · rename_i fresh
            simp [fresh]
          · rfl
      | place other => exact placed _ rfl rfl other last
      | subroutine => exact induction earlier
      | subroutineAt other => exact placed _ rfl rfl other last
      | emit instruction => exact induction earlier
      | jump opcode target => exact induction earlier

/-- Emitted so far, by subroutine. -/
def begun (assembler : Assembler) : List (List Pending) :=
  assembler.subroutines.toList.map Array.toList

theorem begun_subroutine (assembler : Assembler) : assembler.subroutine.begun = assembler.begun ++ [[]] := by
  simp [begun, subroutine]

/-- What is emitted goes to the last subroutine. -/
theorem begun_push {pending : Pending} {done : List (List Pending)} {last : List Pending}
    (before : assembler.begun = done ++ [last]) :
    (assembler.push pending).begun = done ++ [last ++ [pending]] := by
  obtain ⟨⟨subroutines⟩, labels, emitted⟩ := assembler
  obtain ⟨front, back, rfl, rfl, same⟩ := List.map_eq_append_iff.mp before
  obtain ⟨final, rfl, rfl⟩ := List.map_eq_singleton_iff.mp same
  have changed : (front ++ [final]).modify front.length (·.push pending) =
      front ++ [final.push pending] := by
    simp [List.modify_eq_take_cons_drop]
  simp [begun, push, changed]

theorem begun_push_of_nil {pending : Pending} (before : assembler.begun = []) :
    (assembler.push pending).begun = [[pending]] := by
  obtain ⟨⟨subroutines⟩, labels, emitted⟩ := assembler
  obtain rfl := List.map_eq_nil_iff.mp before
  rfl

/-- Once a subroutine is begun, it gets what is emitted before the next. -/
theorem begun_foldl {done : List (List Pending)} {last : List Pending}
    (before : assembler.begun = done ++ [last]) :
    (operations.foldl apply assembler).begun =
      done ++ (last ++ (pieces operations).1) :: (pieces operations).2 := by
  induction operations generalizing assembler done last with
  | nil => simpa [pieces] using before
  | cons operation operations induction =>
      cases operation with
      | introduce => exact induction before
      | place => exact induction before
      | subroutine =>
          have next : (assembler.apply .subroutine).begun = (done ++ [last]) ++ [[]] := by
            rw [apply, begun_subroutine, before]
          simp [induction next, pieces]
      | subroutineAt label =>
          have next : (assembler.apply (.subroutineAt label)).begun = (done ++ [last]) ++ [[]] := by
            rw [← before, ← begun_subroutine]
            rfl
          simp [induction next, pieces]
      | emit instruction =>
          have next : (assembler.apply (.emit instruction)).begun = done ++ [last ++ [.fixed instruction]] :=
            begun_push before
          simp [induction next, pieces]
      | jump opcode target =>
          have next : (assembler.apply (.jump opcode target)).begun = done ++ [last ++ [.jump opcode target]] :=
            begun_push before
          simp [induction next, pieces]

/-- The subroutines are divided as the operations say. -/
theorem begun_run (operations : List Operation) : (run operations).begun = divided operations := by
  suffices unbegun : ∀ assembler : Assembler, assembler.begun = [] →
      (operations.foldl apply assembler).begun = divided operations from unbegun empty rfl
  induction operations with
  | nil => exact fun assembler nothing => nothing
  | cons operation operations induction =>
      intro assembler nothing
      cases operation with
      | introduce => exact induction assembler.label.1 nothing
      | place label => exact induction (assembler.place label) nothing
      | subroutine =>
          have next : assembler.subroutine.begun = [] ++ [[]] := by
            rw [begun_subroutine, nothing]
          exact begun_foldl next
      | subroutineAt label =>
          have next : (assembler.subroutineAt label).begun = [] ++ [[]] := by
            change assembler.subroutine.begun = _
            rw [begun_subroutine, nothing]
          exact begun_foldl next
      | emit instruction =>
          have next : (assembler.emit instruction).begun = [] ++ [[.fixed instruction]] :=
            begun_push_of_nil nothing
          exact begun_foldl next
      | jump opcode target =>
          have next : (assembler.jump opcode target).begun = [] ++ [[.jump opcode target]] :=
            begun_push_of_nil nothing
          exact begun_foldl next

/-- Every emitted instruction is in a subroutine. -/
theorem flatten_divided (operations : List Operation) :
    (divided operations).flatten = emissions operations := by
  have whole : (pieces operations).1 ++ (pieces operations).2.flatten = emissions operations := by
    induction operations with
    | nil => rfl
    | cons operation operations induction =>
        cases operation <;>
          simp [pieces, emissions, List.filterMap_cons, Operation.emitted?] <;> exact induction
  rw [← whole, divided]
  split
  · rename_i same
    rw [same]
    rfl
  · rename_i same
    rw [same]
    rfl

end Operations

section Resolution

variable {assembler : Assembler} {positions : Array Nat} {position : Nat}

/-- A label has a position exactly if it stands before an instruction. -/
theorem target_eq_ok_iff {label : Nat} :
    assembler.target positions label = .ok position ↔
      ∃ index : Nat, assembler.labels[label]? = some (some index) ∧
        positions[index]? = some position := by
  unfold target
  constructor
  · intro found
    split at found
    · rename_i index stands
      refine ⟨index, stands, ?_⟩
      split at found
      · rename_i there
        cases found
        exact there
      · cases found
    · cases found
  · rintro ⟨index, stands, there⟩
    simp [stands, there]

theorem getElem?_positionsFrom (position : Nat) (body : List Pending) (index : Nat)
    (inside : index < body.length) :
    (positionsFrom position body)[index]? = some (position + pendingSize (body.take index)) := by
  induction body generalizing position index with
  | nil => exact absurd inside (Nat.not_lt_zero _)
  | cons pending body induction =>
      cases index with
      | zero => rfl
      | succ index =>
          rw [positionsFrom, List.getElem?_cons_succ, induction _ _ (Nat.lt_of_succ_lt_succ inside)]
          simp [pendingSize, Nat.add_assoc]

theorem length_positionsFrom (position : Nat) (body : List Pending) :
    (positionsFrom position body).length = body.length := by
  induction body generalizing position with
  | nil => rfl
  | cons pending body induction => simp [positionsFrom, induction]

/-- A subroutine is resolved exactly if each label that its jumps use has a position. -/
theorem exists_resolveBody_iff {body : List Pending} :
    (∃ placed, assembler.resolveBody positions position body = .ok placed) ↔
      ∀ opcode label, Pending.jump opcode label ∈ body →
        ∃ target, assembler.target positions label = .ok target := by
  induction body generalizing position with
  | nil => simp [resolveBody]
  | cons pending body induction =>
      have first : (∃ placed, assembler.resolve positions position pending = .ok placed) ↔
          ∀ opcode label, pending = .jump opcode label →
            ∃ target, assembler.target positions label = .ok target := by
        cases pending with
        | fixed instruction => simp [resolve]
        | jump opcode label =>
            constructor
            · rintro ⟨placed, resolved⟩ _ _ ⟨⟩
              obtain ⟨target, found, -⟩ := exists_of_bind_eq_ok resolved
              exact ⟨target, found⟩
            · intro has
              obtain ⟨target, found⟩ := has _ _ rfl
              exact ⟨_, by rw [resolve, found]; rfl⟩
      constructor
      · rintro ⟨placed, resolved⟩ opcode label listed
        obtain ⟨head, here, rest⟩ := exists_of_bind_eq_ok resolved
        obtain ⟨tail, later, -⟩ := exists_of_bind_eq_ok rest
        rcases List.mem_cons.mp listed with same | behind
        · exact first.mp ⟨head, here⟩ _ _ same.symm
        · exact induction.mp ⟨tail, later⟩ _ _ behind
      · intro all
        obtain ⟨head, here⟩ := first.mpr fun opcode label same => all opcode label (by simp [same])
        obtain ⟨tail, later⟩ := (@induction (position + pending.size)).mpr
          fun opcode label listed => all opcode label (List.mem_cons_of_mem _ listed)
        exact ⟨head :: tail, by rw [resolveBody, here]; simp only [bind, Except.bind, later]; rfl⟩

/-- Each instruction of a resolved subroutine is resolved at its own position. -/
theorem getElem?_of_resolveBody {body : List Pending} {placed : List Placed}
    (resolved : assembler.resolveBody positions position body = .ok placed) :
    placed.length = body.length ∧ ∀ index pending, body[index]? = some pending →
      ∃ entry, placed[index]? = some entry ∧
        assembler.resolve positions (position + pendingSize (body.take index)) pending =
          .ok entry := by
  induction body generalizing position placed with
  | nil =>
      cases resolved
      simp
  | cons first body induction =>
      obtain ⟨head, here, rest⟩ := exists_of_bind_eq_ok resolved
      obtain ⟨tail, later, last⟩ := exists_of_bind_eq_ok rest
      cases last
      obtain ⟨counted, each⟩ := induction later
      refine ⟨by simp [counted], fun index pending there => ?_⟩
      cases index with
      | zero =>
          cases there
          exact ⟨head, rfl, here⟩
      | succ index =>
          obtain ⟨entry, found, own⟩ := each index pending there
          refine ⟨entry, found, ?_⟩
          rw [← own]
          simp [pendingSize, Nat.add_assoc]

/-- Subroutines are resolved one behind another. -/
theorem resolveBody_append (first second : List Pending) :
    assembler.resolveBody positions position (first ++ second) = (do
      let front ← assembler.resolveBody positions position first
      return front ++
        (← assembler.resolveBody positions (position + pendingSize first) second)) := by
  induction first generalizing position with
  | nil => exact (id_map _).symm
  | cons pending first induction =>
      simp [resolveBody, induction, pendingSize, Nat.add_assoc]

theorem map_flatten_resolveBodies (bodies : List (List Pending)) :
    List.flatten <$> assembler.resolveBodies positions position bodies =
      assembler.resolveBody positions position bodies.flatten := by
  induction bodies generalizing position with
  | nil => rfl
  | cons body bodies induction =>
      rw [List.flatten_cons, resolveBody_append, ← induction]
      simp [resolveBodies, pendingSize]

/-- Resolved subroutines have the lengths of those that were begun. -/
theorem map_length_of_resolveBodies {bodies : List (List Pending)} {placed : List (List Placed)}
    (resolved : assembler.resolveBodies positions position bodies = .ok placed) :
    placed.map List.length = bodies.map List.length := by
  induction bodies generalizing position placed with
  | nil =>
      cases resolved
      rfl
  | cons body bodies induction =>
      obtain ⟨head, here, rest⟩ := exists_of_bind_eq_ok resolved
      obtain ⟨tail, later, last⟩ := exists_of_bind_eq_ok rest
      cases last
      rw [List.map_cons, List.map_cons, induction later, (getElem?_of_resolveBody here).1]

end Resolution

/-- A program holds what was emitted, divided as the operations say, without gaps behind the file
header. -/
structure Holds (operations : List Operation) (program : Program) : Prop where
  /-- Subroutines have as many instructions as were emitted for them. -/
  divided : program.bodies.map List.length = (divided operations).map List.length
  /-- An instruction stands behind the header and all that was emitted before. -/
  position : ∀ index < (emissions operations).length, program.position index =
    Instruction.headerSize + pendingSize ((emissions operations).take index)
  /-- An instruction with all its operands is kept. -/
  fixed : ∀ (index : Nat) instruction,
    (emissions operations)[index]? = some (.fixed instruction) →
      program.instruction index = instruction
  /-- A jump gets an offset. -/
  jump : ∀ (index : Nat) opcode label, (emissions operations)[index]? = some (.jump opcode label) →
    ∃ offset, program.instruction index = .jump opcode offset

section Assembled

variable {operations : List Operation} {program : Program}

theorem mem_emissions_jump {opcode : Opcode} {label : Nat} :
    Pending.jump opcode label ∈ emissions operations ↔ .jump opcode label ∈ operations := by
  rw [emissions, List.mem_filterMap]
  constructor
  · rintro ⟨operation, listed, same⟩
    cases operation <;> cases same
    exact listed
  · exact fun listed => ⟨_, listed, rfl⟩

theorem mem_emissions_fixed {instruction : Instruction} :
    Pending.fixed instruction ∈ emissions operations ↔ .emit instruction ∈ operations := by
  rw [emissions, List.mem_filterMap]
  constructor
  · rintro ⟨operation, listed, same⟩
    cases operation <;> cases same
    exact listed
  · exact fun listed => ⟨_, listed, rfl⟩

theorem Admissible.of_mem {known : Nat} {operation : Operation} (admissible : Admissible known operations)
    (listed : operation ∈ operations) : ∃ later, operation.IsAdmissible later := by
  induction operations generalizing known with
  | nil => exact absurd listed List.not_mem_nil
  | cons first rest induction =>
      rcases List.mem_cons.mp listed with rfl | behind
      · exact ⟨known, admissible.1⟩
      · exact induction admissible.2 behind

/-- The positions of what is emitted. -/
def positions (operations : List Operation) : Array Nat :=
  (positionsFrom Instruction.headerSize (emissions operations)).toArray

theorem assemble_run (operations : List Operation) :
    (run operations).assemble = (do
      let placed ← (run operations).resolveBodies (positions operations) Instruction.headerSize
        (Assembler.divided operations)
      Program.ofBodies placed) := by
  rw [positions, ← flatten_divided, ← begun_run]
  rfl

/-- The position of a label is that of the instruction that it was last placed before. -/
theorem target_run_eq_ok_iff (admissible : Admissible 0 operations) {label position : Nat} :
    (run operations).target (positions operations) label = .ok position ↔
      ∃ index < (emissions operations).length, LastPlaced operations label index ∧
        position = Instruction.headerSize + pendingSize ((emissions operations).take index) := by
  rw [target_eq_ok_iff]
  constructor
  · rintro ⟨index, stands, there⟩
    obtain ⟨inside, -⟩ := Array.getElem?_eq_some_iff.mp there
    rw [positions, List.size_toArray, length_positionsFrom] at inside
    rw [positions, List.getElem?_toArray, getElem?_positionsFrom _ _ _ inside] at there
    exact ⟨index, inside, (labels_run admissible).mp stands, (Option.some.inj there).symm⟩
  · rintro ⟨index, inside, stands, rfl⟩
    refine ⟨index, (labels_run admissible).mpr stands, ?_⟩
    rw [positions, List.getElem?_toArray, getElem?_positionsFrom _ _ _ inside]

theorem ne_nil_of_map_length {α β : Type} {first : List (List α)} {second : List (List β)}
    (same : first.map List.length = second.map List.length) :
    (∀ body ∈ first, body ≠ []) ↔ ∀ body ∈ second, body ≠ [] := by
  have nonzero : ∀ {γ : Type} (bodies : List (List γ)),
      (∀ body ∈ bodies, body ≠ []) ↔ 0 ∉ bodies.map List.length := by
    intro γ bodies
    simp only [List.mem_map, List.length_eq_zero_iff, exists_eq_right]
    exact ⟨fun all listed => all _ listed rfl, fun absent body listed same => absent (same ▸ listed)⟩
  rw [nonzero, nonzero, same]

/-- Assembling succeeds exactly if every label that a jump uses stands before an instruction and no
subroutine is empty. -/
theorem exists_assemble_run_iff (admissible : Admissible 0 operations) :
    (∃ program, (run operations).assemble = .ok program) ↔
      (∀ opcode label, .jump opcode label ∈ operations →
        ∃ index < (emissions operations).length, LastPlaced operations label index) ∧
      ∀ body ∈ Assembler.divided operations, body ≠ [] := by
  have labelled : (∃ placed, (run operations).resolveBodies (positions operations)
        Instruction.headerSize (Assembler.divided operations) = .ok placed) ↔
      ∀ opcode label, .jump opcode label ∈ operations →
        ∃ index < (emissions operations).length, LastPlaced operations label index := by
    have flat : ∀ result : Except Fault (List (List Placed)),
        (∃ placed, result = .ok placed) ↔ ∃ placed, List.flatten <$> result = .ok placed := by
      rintro (fault | placed)
      · exact ⟨nofun, nofun⟩
      · exact ⟨fun _ => ⟨_, rfl⟩, fun _ => ⟨_, rfl⟩⟩
    rw [flat, map_flatten_resolveBodies, flatten_divided, exists_resolveBody_iff]
    simp only [mem_emissions_jump, target_run_eq_ok_iff admissible]
    refine forall_congr' fun opcode => forall_congr' fun label => imp_congr_right fun _ => ?_
    constructor
    · rintro ⟨_, index, inside, stands, -⟩
      exact ⟨index, inside, stands⟩
    · rintro ⟨index, inside, stands⟩
      exact ⟨_, index, inside, stands, rfl⟩
  rw [← labelled, assemble_run]
  constructor
  · rintro ⟨program, assembled⟩
    obtain ⟨placed, resolved, built⟩ := exists_of_bind_eq_ok assembled
    refine ⟨⟨placed, resolved⟩, (ne_nil_of_map_length (map_length_of_resolveBodies resolved)).mp ?_⟩
    rw [← Program.bodies_of_ofBodies built]
    exact program.bodies_ne_nil
  · rintro ⟨⟨placed, resolved⟩, filled⟩
    have nonempty := (ne_nil_of_map_length (map_length_of_resolveBodies resolved)).mpr filled
    refine ⟨.ofNonempty placed nonempty, ?_⟩
    rw [resolved]
    exact Program.ofBodies_eq_ok nonempty

/-- What was emitted with a number is resolved at its position as the instruction with that
number. -/
theorem resolve_of_assemble_run (assembled : (run operations).assemble = .ok program) {index : Nat}
    {pending : Pending} (there : (emissions operations)[index]? = some pending) :
    program.position index =
        Instruction.headerSize + pendingSize ((emissions operations).take index) ∧
      (run operations).resolve (positions operations) (program.position index) pending =
        .ok ⟨program.position index, program.instruction index⟩ := by
  rw [assemble_run] at assembled
  obtain ⟨placed, resolved, built⟩ := exists_of_bind_eq_ok assembled
  have flat : (run operations).resolveBody (positions operations) Instruction.headerSize
      (emissions operations) = .ok program.bodies.flatten := by
    rw [← flatten_divided, ← map_flatten_resolveBodies, resolved, Program.bodies_of_ofBodies built]
    rfl
  obtain ⟨entry, found, own⟩ := (getElem?_of_resolveBody flat).2 index pending there
  have inside : index < program.commandCount := by
    rw [Program.commandCount_eq_length]
    exact (List.getElem?_eq_some_iff.mp found).1
  obtain ⟨other, same, position, instruction⟩ := Program.exists_placed inside
  obtain rfl := Option.some.inj (found.symm.trans same)
  rw [position, instruction]
  obtain ⟨stands, -⟩ := resolve_spec own
  rw [← stands] at own
  exact ⟨stands, own⟩

theorem commandCount_of_assemble_run (assembled : (run operations).assemble = .ok program) :
    program.commandCount = (emissions operations).length := by
  rw [assemble_run] at assembled
  obtain ⟨placed, resolved, built⟩ := exists_of_bind_eq_ok assembled
  have counted := map_length_of_resolveBodies resolved
  rw [Program.commandCount_eq_length, Program.bodies_of_ofBodies built, List.length_flatten, counted,
    ← List.length_flatten, flatten_divided]

/-- The tree holds what was emitted. -/
theorem holds_of_assemble_run (assembled : (run operations).assemble = .ok program) :
    Holds operations program := by
  refine ⟨?_, fun index inside => ?_, fun index instruction there => ?_,
    fun index opcode label there => ?_⟩
  · rw [assemble_run] at assembled
    obtain ⟨placed, resolved, built⟩ := exists_of_bind_eq_ok assembled
    rw [Program.bodies_of_ofBodies built, map_length_of_resolveBodies resolved]
  · exact (resolve_of_assemble_run assembled (List.getElem?_eq_getElem inside)).1
  · have resolved := (resolve_of_assemble_run assembled there).2
    simp only [resolve, Except.ok.injEq, Placed.mk.injEq, true_and] at resolved
    exact resolved.symm
  · have resolved := (resolve_of_assemble_run assembled there).2
    obtain ⟨target, -, last⟩ := exists_of_bind_eq_ok resolved
    simp only [pure, Except.pure, Except.ok.injEq, Placed.mk.injEq, true_and] at last
    exact ⟨_, last.symm⟩

/-- A distance between positions that are not too far apart leads from one to the other. -/
theorem add_distance {source target : Nat} (first : target < source + 0x80000000)
    (second : source < target + 0x80000000) : (source : Int) + distance source target = target := by
  rw [distance, Int.bmod_eq_of_le (by omega) (by omega)]
  omega

theorem pendingSize_append (first second : List Pending) :
    pendingSize (first ++ second) = pendingSize first + pendingSize second := by
  simp only [pendingSize, ← List.sum_eq_foldr, List.map_append, List.sum_append]

theorem pendingSize_take_le (body : List Pending) (index : Nat) :
    pendingSize (body.take index) ≤ pendingSize body := by
  calc
    pendingSize (body.take index) ≤ pendingSize (body.take index) + pendingSize (body.drop index) :=
      Nat.le_add_right _ _
    _ = pendingSize body := by rw [← pendingSize_append, List.take_append_drop]

/-- Positions of an assembled program increase. -/
theorem increasing_of_assemble_run (assembled : (run operations).assemble = .ok program) :
    Positions.Increasing program := by
  intro command inside
  rw [commandCount_of_assemble_run assembled] at inside
  have here := Nat.lt_of_succ_lt inside
  have holds := holds_of_assemble_run assembled
  have positive : 0 < pendingSize [(emissions operations)[command]] := by
    cases (emissions operations)[command] with
    | fixed instruction => exact Nat.add_pos_left instruction.size_pos _
    | jump opcode label => exact Nat.add_pos_left (show 0 < Instruction.jumpSize by decide) _
  rw [holds.position _ inside, holds.position _ here, List.take_succ_eq_append_getElem here,
    pendingSize_append]
  omega

/-- A jump of an assembled program leads to the instruction that its label was last placed
before. -/
theorem exists_destination_of_assemble_run (admissible : Admissible 0 operations)
    (fits : pendingSize (emissions operations) < 2 ^ 31)
    (assembled : (run operations).assemble = .ok program) {index label : Nat} {opcode : Opcode}
    (there : (emissions operations)[index]? = some (.jump opcode label)) :
    ∃ target < program.commandCount, LastPlaced operations label target ∧
      Jumps.destination? program index = some target := by
  obtain ⟨stands, resolved⟩ := resolve_of_assemble_run assembled there
  obtain ⟨position, found, last⟩ := exists_of_bind_eq_ok resolved
  simp only [pure, Except.pure, Except.ok.injEq, Placed.mk.injEq, true_and] at last
  obtain ⟨target, inside, placed, rfl⟩ := (target_run_eq_ok_iff admissible).mp found
  obtain ⟨_, jumps, -⟩ : ∃ known, Operation.IsAdmissible known (.jump opcode label) :=
    admissible.of_mem (mem_emissions_jump.mp (List.mem_of_getElem? there))
  have there := (holds_of_assemble_run assembled).position target inside
  have aimed : Jumps.target? program index = some (program.position target : Int) := by
    have near := pendingSize_take_le (emissions operations) index
    have far := pendingSize_take_le (emissions operations) target
    rw [Jumps.target?, ← last, Instruction.jumpOffset?, Instruction.jump, if_pos jumps, ← there]
    simp only [Instruction.offset?, Option.map_some, Option.some.injEq]
    exact add_distance (by omega) (by omega)
  rw [← commandCount_of_assemble_run assembled] at inside
  refine ⟨target, inside, placed, ?_⟩
  rw [Jumps.destination?, aimed, Option.bind_some,
    Jumps.commandAt?_eq_some_iff (increasing_of_assemble_run assembled)]
  exact ⟨inside, rfl⟩

/-- Every jump of an assembled program lands. -/
theorem allLand_of_assemble_run (admissible : Admissible 0 operations)
    (fits : pendingSize (emissions operations) < 2 ^ 31)
    (assembled : (run operations).assemble = .ok program) : Jumps.AllLand program := by
  intro command inside jumps
  rw [commandCount_of_assemble_run assembled] at inside
  have there := List.getElem?_eq_getElem inside
  cases same : (emissions operations)[command] with
  | fixed instruction =>
      rw [same] at there
      obtain ⟨_, plain⟩ : ∃ known, Operation.IsAdmissible known (.emit instruction) :=
        admissible.of_mem (mem_emissions_fixed.mp (List.mem_of_getElem? there))
      change instruction.jumpOffset? = none at plain
      rw [Jumps.target?, (holds_of_assemble_run assembled).fixed _ _ there, plain] at jumps
      cases jumps
  | jump opcode label =>
      rw [same] at there
      obtain ⟨target, -, -, leads⟩ :=
        exists_destination_of_assemble_run admissible fits assembled there
      rw [leads]
      rfl

/-- Assembling a list of operations succeeds exactly if every label that a jump uses was placed and
stands before an emitted instruction, and no subroutine is empty.  The program then holds what was
emitted, its positions are recorded and its jumps resolved, and each jump leads to the instruction that
its label was last placed before. -/
theorem assembled_resolves (operations : List Operation) (admissible : Admissible 0 operations)
    (fits : pendingSize (emissions operations) < 2 ^ 31) :
    ((∃ program, (run operations).assemble = .ok program) ↔
      (∀ opcode label, .jump opcode label ∈ operations →
        ∃ index < (emissions operations).length, LastPlaced operations label index) ∧
      ∀ body ∈ Assembler.divided operations, body ≠ []) ∧
    ∀ program, (run operations).assemble = .ok program → Holds operations program ∧
      ∃ recorded resolved,
        (Positions.record program).runOn (.blank program.commandCount) = (.ok (), recorded) ∧
        (Jumps.resolve program).runOn recorded = (.ok (), resolved) ∧
        ∀ (index : Nat) opcode label,
          (emissions operations)[index]? = some (.jump opcode label) →
            ∃ target, LastPlaced operations label target ∧
              resolved.destination index = .ok (some target) := by
  refine ⟨exists_assemble_run_iff admissible, fun program assembled => ?_⟩
  have increasing := increasing_of_assemble_run assembled
  have land := allLand_of_assemble_run admissible fits assembled
  refine ⟨holds_of_assemble_run assembled, _, .resolved program,
    Positions.runOn_record.mpr ⟨increasing, rfl⟩,
    (Jumps.runOn_resolve increasing).mpr ⟨land, rfl⟩, fun index opcode label there => ?_⟩
  obtain ⟨target, -, placed, leads⟩ :=
    exists_destination_of_assemble_run admissible fits assembled there
  have inside : index < program.commandCount := by
    rw [commandCount_of_assemble_run assembled]
    exact (List.getElem?_eq_some_iff.mp there).1
  exact ⟨target, placed, by rw [FlowTable.destination_resolved inside, leads]⟩

/-- A backward jump to a label that was placed twice, and a call of a later subroutine. -/
def sampleOperations : List Operation :=
  [.introduce, .introduce, .place 0, .emit (.simple .nop .void), .place 0, .jump .call 1,
    .jump .jump 0, .emit (.simple .ret .void), .subroutineAt 1, .emit (.simple .ret .void)]

theorem assembled_resolves_sample :
    Admissible 0 sampleOperations ∧ pendingSize (emissions sampleOperations) < 2 ^ 31 ∧
      ∃ program, (run sampleOperations).assemble = .ok program ∧ Holds sampleOperations program := by
  have admissible : Admissible 0 sampleOperations := by decide
  have fits : pendingSize (emissions sampleOperations) < 2 ^ 31 := by decide
  obtain ⟨succeeds, spec⟩ := assembled_resolves sampleOperations admissible fits
  have placed : ∀ opcode label, .jump opcode label ∈ sampleOperations →
      ∃ index < (emissions sampleOperations).length, LastPlaced sampleOperations label index := by
    intro opcode label listed
    rcases (by simpa [sampleOperations] using listed :
      (opcode = .call ∧ label = 1) ∨ (opcode = .jump ∧ label = 0)) with ⟨-, rfl⟩ | ⟨-, rfl⟩
    · exact ⟨4, by decide, sampleOperations.take 8, _, _, rfl, rfl, by decide, rfl⟩
    · exact ⟨1, by decide, sampleOperations.take 4, _, _, rfl, rfl, by decide, rfl⟩
  obtain ⟨program, assembled⟩ := succeeds.mpr ⟨placed, by decide⟩
  exact ⟨admissible, fits, program, assembled, (spec program assembled).1⟩

end Assembled

end Assembler
end NwScript
