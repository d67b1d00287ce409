import NwScript.Proofs.RecoveryRuns

/-!
# Copies to the top

A copy to the top of the stack pushes as many slots as its operand counts, whether they exist or not and
whatever they hold, or it fails and ends the recovery of the subroutine.  A copy of less than one slot from
the globals is different: it addresses no slots, so that none of them is missing, and there is no first one
to look at.
-/

namespace NwScript

open Recover

namespace SlotStack

variable {α : Type} {stack : SlotStack α} {offset : Int} {size first limit : Nat}

/-- A run of slots that exists is as long as its operand says, and not empty. -/
theorem length_slice_of_range? (found : stack.range? offset size = some (first, limit)) :
    (stack.slice first limit).length = size / 4 ∧ 0 < size / 4 := by
  rw [range?] at found
  split at found
  · rename_i whole
    dsimp only at found
    split at found
    · obtain ⟨rfl, rfl⟩ := Prod.mk.inj (Option.some.inj found)
      simp only [slice, Array.length_toList, Array.size_extract]
      change min _ stack.height - _ = _ ∧ _
      omega
    · cases found
  · cases found

end SlotStack

namespace Recover

/-- A step pushes a number of slots, or fails without breaking off the whole run. -/
def Pushes {α : Type} (count : Nat) (step : Recover α) (before : Recovery) : Prop :=
  (∃ value after pushed, Runs step before value after ∧ pushed.length = count ∧
    after.stack.toList = before.stack.toList ++ pushed) ∨
  ∃ fault, step.run before = .error fault ∧ fault.isFatal = false

namespace Pushes

variable {α β : Type} {before middle after : Recovery} {count more : Nat} {step : Recover α}
  {next : α → Recover β} {value : α}

/-- A step with a known outcome. -/
theorem of_runs (pushed : List StackEntry) (runs : Runs step before value after)
    (grown : after.stack.toList = before.stack.toList ++ pushed) :
    Pushes pushed.length step before :=
  .inl ⟨value, after, pushed, runs, rfl, grown⟩

/-- A step that leaves the slots alone. -/
theorem of_kept (runs : Runs step before value after) (kept : after.stack = before.stack) :
    Pushes 0 step before :=
  of_runs [] runs (by rw [kept, List.append_nil])

theorem done (value : α) (before : Recovery) : Pushes 0 (pure value : Recover α) before :=
  of_kept (.done value before) rfl

theorem fail {fault : Fault} (bounded : fault.isFatal = false) :
    Pushes count (throw fault : Recover α) before :=
  .inr ⟨fault, rfl, bounded⟩

theorem bind (first : Pushes count step before)
    (second : ∀ {value middle}, Runs step before value middle → Pushes more (next value) middle) :
    Pushes (count + more) (step >>= next) before := by
  rcases first with ⟨value, middle, pushed, begun, rfl, grown⟩ | ⟨fault, failed, bounded⟩
  · rcases second begun with ⟨result, after, others, ended, rfl, last⟩ | ⟨fault, failed, bounded⟩
    · refine .inl ⟨result, after, pushed ++ others, begun.bind ended, List.length_append, ?_⟩
      rw [last, grown, List.append_assoc]
    · refine .inr ⟨fault, ?_, bounded⟩
      rw [StateT.run_bind, begun]
      exact failed
  · refine .inr ⟨fault, ?_, bounded⟩
    rw [StateT.run_bind, failed]
    rfl

/-- A step that leaves the slots alone comes first. -/
theorem via (runs : Runs step before value middle) (kept : middle.stack = before.stack)
    (rest : Pushes count (next value) middle) : Pushes count (step >>= next) before := by
  rw [← Nat.zero_add count]
  refine (of_kept runs kept).bind fun {_ _} other => ?_
  obtain ⟨rfl, rfl⟩ := Prod.mk.inj (Except.ok.inj (runs.symm.trans other))
  exact rest

theorem lift {outcome : Except Fault α}
    (rest : ∀ value, outcome = .ok value → Pushes count (next value) before)
    (bounded : ∀ fault, outcome = .error fault → fault.isFatal = false) :
    Pushes count ((liftM outcome : Recover α) >>= next) before := by
  cases done : outcome with
  | ok value => exact .via (.lift rfl before) rfl (rest value done)
  | error fault => exact .inr ⟨fault, rfl, bounded fault done⟩

theorem reads {next : Recovery → Recover β} (rest : Pushes count (next before) before) :
    Pushes count (get >>= next) before :=
  via (.reads before) rfl rest

/-- A step that leaves the slots alone comes last. -/
theorem andKeep (first : Pushes count step before)
    (second : ∀ {value middle}, Pushes 0 (next value) middle) : Pushes count (step >>= next) before :=
  first.bind fun _ => second

end Pushes

section Copies

variable {before : Recovery} {input : RecoveryInput} {command : Nat} {track : Option StepTrack}

theorem onStack_pushAll_pushes (entries : List StackEntry) :
    Pushes entries.length (onStack (·.pushAll entries)) before :=
  .of_runs entries (onStack_runs _ before) (SlotStack.toList_pushAll _ _)

theorem push_pushes (entry : StackEntry) : Pushes 1 (push entry) before :=
  .of_runs [entry] (push_runs entry before) (SlotStack.toList_push _ _)

theorem pushUnknown_pushes (count : Nat) : Pushes count (pushUnknown count) before := by
  induction count generalizing before with
  | zero => exact .done () before
  | succ count induction =>
      refine .via (addNode_runs _ _) rfl ?_
      rw [Nat.add_comm count 1]
      exact (push_pushes _).bind fun _ => induction

/-- An intermediate value fills at least one slot. -/
theorem pushValue_pushes (type : Ty) (value : NodeId) (width : Nat) :
    Pushes (max width 1) (pushValue type value width) before := by
  refine .via (addVar_runs _ _) rfl ?_
  have filled : ∀ {entry : StackEntry} {middle : Recovery}, Pushes (max width 1)
      (onStack (·.pushAll (List.replicate (max width 1) entry))) middle := by
    intro entry middle
    have pushes := @onStack_pushAll_pushes middle (List.replicate (max width 1) entry)
    rwa [List.length_replicate] at pushes
  exact filled.andKeep fun {_ _} => .done _ _

theorem pushUse_pushes (var : VarId) (width : Nat) :
    Pushes (max width 1) (pushUse var width) before :=
  .via (onTree_runs _ _) rfl (.reads (.via (addNode_runs _ _) rfl (pushValue_pushes _ _ _)))

theorem pushEach_pushes (entries : List StackEntry) :
    Pushes entries.length (pushEach entries) before := by
  induction entries generalizing before with
  | nil => exact .done () before
  | cons entry entries induction =>
      rw [List.length_cons, Nat.add_comm]
      unfold pushEach
      split
      · refine .reads ?_
        split
        · exact (pushUse_pushes _ 1).bind fun _ => induction
        · exact (push_pushes _).bind fun _ => induction
      · exact (push_pushes _).bind fun _ => induction

theorem groupLoose_pushes (entries : List StackEntry) : Pushes 0 (groupLoose entries) before := by
  refine .reads ?_
  split
  · split
    · exact .fail rfl
    · exact .of_kept rfl rfl
  · exact .done _ _

/-- Looking for the variable that entries are may group variables, but moves no slots. -/
theorem namedValue_pushes (entries : List StackEntry) : Pushes 0 (namedValue entries) before := by
  refine .reads ?_
  split
  · exact .done _ _
  · exact .done _ _
  · split
    · exact .done _ _
    · exact groupLoose_pushes _

theorem pushCopies_pushes {entries : List StackEntry} (some_entry : entries ≠ []) :
    Pushes entries.length (pushCopies entries) before := by
  rw [← Nat.zero_add entries.length]
  refine (namedValue_pushes entries).bind fun {named middle} _ => ?_
  cases named with
  | none => exact pushEach_pushes entries
  | some var =>
      have used := @pushUse_pushes middle var entries.length
      rw [Nat.max_eq_left (List.length_pos_of_ne_nil some_entry)] at used
      exact used.andKeep fun {_ _} => .of_kept (.changes _ _) rfl

/-- A statement that stepped a variable leaves one slot. -/
theorem stepBefore_pushes {statement : NodeId} (target : VarId)
    (stepped : before.tree.IsStep statement) : Pushes 1 (stepBefore statement target) before := by
  obtain ⟨_, expression, _, _, _, states, _⟩ := id stepped
  refine .reads ?_
  rw [states]
  refine .via (onTree_runs _ _) rfl (.reads ?_)
  exact (pushValue_pushes _ _ 1).andKeep fun {_ _} => .done _ _

theorem isFatal_of_origins {fault : Fault} (failed : input.table.origins command = .error fault) :
    fault.isFatal = false := by
  rw [FlowTable.origins, FlowTable.row] at failed
  cases known : input.table.row? command with
  | none =>
      rw [known] at failed
      cases failed
      rfl
  | some row =>
      rw [known] at failed
      cases failed

/-- Whether a copy completes a change by one is known, or the instruction was never met. -/
theorem isFatal_of_steppedBefore? {entries : List StackEntry} {fault : Fault}
    (failed : steppedBefore? input command track entries = .error fault) : fault.isFatal = false := by
  unfold steppedBefore? at failed
  split at failed
  · split at failed
    · cases known : input.table.origins command with
      | error other =>
          rw [known] at failed
          cases failed
          exact isFatal_of_origins known
      | ok origins =>
          rw [known] at failed
          cases failed
    · cases failed
  · cases failed

/-- Only the copy of one slot completes a change by one. -/
theorem length_of_steppedBefore? {entries : List StackEntry} {found : NodeId × VarId}
    (steps : steppedBefore? input command track entries = .ok (some found)) : entries.length = 1 := by
  unfold steppedBefore? at steps
  split at steps
  · rfl
  · cases steps

theorem copyEntries_pushes {entries : List StackEntry} (recorded : Records before track)
    (some_entry : entries ≠ []) :
    Pushes entries.length (copyEntries input command track entries) before := by
  refine .lift (fun found known => ?_) fun fault failed => isFatal_of_steppedBefore? failed
  cases found with
  | some stepped =>
      rw [length_of_steppedBefore? known]
      exact stepBefore_pushes _ (recorded _ _ (track_of_steppedBefore? known))
  | none =>
      cases entries with
      | nil => exact absurd rfl some_entry
      | cons first rest =>
          refine .reads ?_
          split
          · exact onStack_pushAll_pushes _
          · exact pushCopies_pushes some_entry

variable {find : Recovery → Int → Nat → Option (List StackEntry)} {offset : Int} {size : Nat}

/-- A copy of slots that exist pushes as many, and so does a copy of slots that do not. -/
theorem copyTop_pushes (operand : (input.program.instruction command).stackOperand? = some (offset, size))
    (recorded : Records before track)
    (fits : ∀ entries, find before offset size = some entries →
      entries.length = size / 4 ∧ 0 < size / 4) :
    Pushes (size / 4) (copyTop input command track find) before := by
  have read : Runs (copyOperand (input.program.instruction command)) before (offset, size) before := by
    unfold copyOperand
    rw [operand]
    rfl
  refine .via read rfl (.reads ?_)
  split
  · rename_i entries found
    obtain ⟨length, positive⟩ := fits entries found
    rw [← length] at positive ⊢
    exact copyEntries_pushes recorded (List.ne_nil_of_length_pos positive)
  · exact pushUnknown_pushes _

theorem copyTop_of_no_operand (unknown : (input.program.instruction command).stackOperand? = none) :
    (copyTop input command track find).run before = .error
      (.malformed (.noStackOperand (input.program.opcode command) before.position)) := by
  unfold copyTop copyOperand
  rw [unknown]
  rfl

theorem length_stackEntries? {before : Recovery} {entries : List StackEntry}
    (found : stackEntries? before offset size = some entries) :
    entries.length = size / 4 ∧ 0 < size / 4 := by
  obtain ⟨⟨first, limit⟩, range, rfl⟩ := Option.map_eq_some_iff.mp found
  exact SlotStack.length_slice_of_range? range

theorem length_globalEntries? {before : Recovery} {entries : List StackEntry}
    (found : globalEntries? before offset size = some entries) : entries.length = size / 4 := by
  rw [globalEntries?] at found
  split at found
  · cases found
    assumption
  · cases found

theorem execute_eq_copyTop (opcode : input.program.opcode command = .copyTop) :
    execute input command track = copyTop input command track stackEntries? := by
  have here : (input.program.instruction command).opcode = .copyTop := opcode
  unfold execute
  dsimp only
  rw [here]

theorem execute_eq_copyTopBase (opcode : input.program.opcode command = .copyTopBase) :
    execute input command track = copyTop input command track globalEntries? := by
  have here : (input.program.instruction command).opcode = .copyTopBase := opcode
  unfold execute
  dsimp only
  rw [here]

/-- The globals that less than a whole slot addresses are none, and all of them exist. -/
theorem globalEntries?_of_lt (short : size < 4) : globalEntries? before offset size = some [] := by
  have none_addressed : size / 4 = 0 := Nat.div_eq_of_lt short
  rw [globalEntries?, globalEntries, none_addressed]
  rfl

/-- Among no slots there is no first one, whatever the globals are. -/
theorem copyTop_globals_of_lt (short : size < 4)
    (operand : (input.program.instruction command).stackOperand? = some (offset, size)) :
    (copyTop input command track globalEntries?).run before =
      .error (.emptyCopy before.position) := by
  have no_step : steppedBefore? input command track [] = .ok none := by
    unfold steppedBefore?
    split
    · rename_i same
      cases same
    · rfl
  have empty : (copyEntries input command track []).run before =
      .error (.emptyCopy before.position) := by
    unfold copyEntries
    rw [no_step]
    rfl
  simpa [copyTop, copyOperand, operand, globalEntries?_of_lt short] using empty

end Copies
end Recover

namespace RecoveryInput

variable {input : RecoveryInput} {sub command : Nat} {state : Recovery} {tasks : List Task}

/-- In every state that a recovery passes through, a copy to the top without an operand fails.  One with an
operand pushes a slot for each four bytes, or fails, and nothing but a copy of less than one slot from the
globals breaks off the whole run. -/
theorem execute_copy_pushes (passes : input.Passes sub state tasks)
    (copies : input.program.opcode command = .copyTop ∨ input.program.opcode command = .copyTopBase) :
    match (input.program.instruction command).stackOperand? with
    | none => ((Task.execute command).perform input).run state = .error
        (.malformed (.noStackOperand (input.program.opcode command) state.position))
    | some (_, size) =>
        if input.program.opcode command = .copyTopBase ∧ size < 4 then
          ((Task.execute command).perform input).run state = .error (.emptyCopy state.position)
        else
          Pushes (size / 4) ((Task.execute command).perform input) state := by
  have recorded : Records { state with track := none } state.track :=
    (isSound_of_passes passes).track
  have performs : ((Task.execute command).perform input).run state =
      (execute input command state.track).run { state with track := none } := rfl
  have pushes : ∀ {count : Nat}, Pushes count (execute input command state.track)
      { state with track := none } → Pushes count ((Task.execute command).perform input) state :=
    fun executed => .reads (.via (.changes _ _) rfl executed)
  split
  · rename_i unknown
    rw [performs]
    rcases copies with onStack | onGlobals
    · rw [execute_eq_copyTop onStack, copyTop_of_no_operand unknown]
    · rw [execute_eq_copyTopBase onGlobals, copyTop_of_no_operand unknown]
  rename_i offset size operand
  split
  · rename_i degenerate
    rw [performs, execute_eq_copyTopBase degenerate.1]
    exact copyTop_globals_of_lt degenerate.2 operand
  · rename_i proper
    apply pushes
    rcases copies with onStack | onGlobals
    · rw [execute_eq_copyTop onStack]
      exact copyTop_pushes operand recorded fun entries => length_stackEntries?
    · rw [execute_eq_copyTopBase onGlobals]
      refine copyTop_pushes operand recorded fun entries found => ⟨length_globalEntries? found, ?_⟩
      exact Nat.div_pos (Nat.not_lt.mp fun short => proper ⟨onGlobals, short⟩) (by decide)

/-- A subroutine copies no slot of the globals, of which it has none, and then two slots of the empty
stack. -/
def blankCopies : Program :=
  .ofNonempty
    [[⟨13, ⟨.copyTopBase, .void, .stack (-4) 0⟩⟩, ⟨21, ⟨.copyTop, .void, .stack (-8) 8⟩⟩,
      ⟨29, .simple .ret .void⟩]] (by simp)

/-- The recovery of this subroutine. -/
def copyingBlanks : RecoveryInput where
  program := blankCopies
  table := Liveness.markedTable blankCopies #[true, true, true]
  calls := ⟨.discrete 1, Array.replicate 3 none, [[0]]⟩
  catalog := ⟨[]⟩
  protos := #[{}]
  globals := []
  layout := ⟨0, none, none, none, 0⟩
  names := ["main"]
  settings := {}

/-- The slots of the stack do not exist, and two are pushed for them all the same. -/
theorem execute_copy_pushes_blanks :
    Pushes 2 ((Task.execute 1).perform copyingBlanks) (copyingBlanks.start 0) :=
  @execute_copy_pushes copyingBlanks 0 1 _ _ .refl (.inl rfl)

/-- The copy of no slot ends the whole run. -/
theorem run_blanks_breaks_off : copyingBlanks.run 0 = .error (.emptyCopy 13) ∧
    (Fault.emptyCopy 13).isFatal = true := by
  have check : (match copyingBlanks.run 0 with
      | .error fault => decide (fault = .emptyCopy 13)
      | .ok _ => false) = true := by decide +kernel
  refine ⟨?_, rfl⟩
  cases ran : copyingBlanks.run 0 with
  | error fault =>
      rw [ran] at check
      exact congrArg _ (of_decide_eq_true check)
  | ok last =>
      rw [ran] at check
      cases check

end RecoveryInput
end NwScript
