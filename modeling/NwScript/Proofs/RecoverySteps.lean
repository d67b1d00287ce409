import NwScript.Proofs.SingleRoutine
import NwScript.Recovery.Subroutine

/-!
# Steps of a recovery

What the steps of a recovery do to its state, one equation for each.  A run of a step is an equation
between states, and runs compose like the steps.
-/

namespace NwScript

namespace SlotStack

variable {α : Type} (stack : SlotStack α) (slot : α)

theorem truncate_push : (stack.push slot).truncate stack.height = stack := by
  cases stack with
  | mk slots =>
      simp only [push, truncate, height, mk.injEq]
      apply Array.ext
      · simp
      · intro place here there
        simp

theorem pop?_push : (stack.push slot).pop? = some (slot, stack) := by
  simp [push, pop?]

theorem drop_push : (stack.push slot).drop = stack := by
  simp [push, drop]

theorem peek?_push : (stack.push slot).peek? 1 = some slot := by
  simp [peek?, push, height]

omit slot in
theorem mem_of_peek? {depth : Nat} {found : α} (peeked : stack.peek? depth = some found) :
    found ∈ stack.slots := by
  rw [peek?] at peeked
  split at peeked
  · exact Array.mem_of_getElem? peeked
  · exact absurd peeked (Option.some_ne_none _).symm

theorem popMany?_push : (stack.push slot).popMany? 1 = some ([slot], stack) := by
  have bound : 1 ≤ (stack.push slot).height := by simp
  rw [popMany?, if_pos bound]
  simp only [height_push, Nat.add_sub_cancel, truncate_push]
  have behind : ¬stack.slots.size + 1 ≤ stack.slots.size := by omega
  congr 2
  simp [push, height, Array.extract_push, behind]

/-- A whole slot below the top has an index. -/
theorem range?_slot {depth : Nat} (positive : 0 < depth) (inside : depth ≤ stack.height) :
    stack.range? (-4 * (depth : Int)) 4 =
      some (stack.height - depth, stack.height - depth + 1) := by
  have whole : (-4 * (depth : Int)) / 4 = -(depth : Int) := by omega
  have multiple : (-4 * (depth : Int)) % 4 = 0 := by omega
  have below : -4 * (depth : Int) < 0 := by omega
  have first : 0 ≤ (stack.height : Int) - depth := by omega
  rw [range?, if_pos ⟨below, multiple, by decide, by decide⟩]
  simp only [whole]
  rw [if_pos (by omega)]
  congr 2 <;> omega

theorem slice_slot {index : Nat} (inside : index < stack.height) :
    stack.slice index (index + 1) = [stack.slots[index]] := by
  have bound : index < stack.slots.size := inside
  simp only [slice]
  apply List.ext_getElem
  · simp
    omega
  · intro place here there
    obtain rfl : place = 0 := by simpa using there
    simp only [Array.getElem_toList, Array.getElem_extract, Nat.add_zero, List.getElem_cons_zero]
    rfl

end SlotStack

namespace ScriptTree

/-- A change that leaves a node as it is leaves the tree as it is. -/
theorem modify_eq_self {tree : ScriptTree} {id : NodeId} {change : Node → Node}
    (same : change (tree.node id) = tree.node id) : tree.modify id change = tree := by
  have nodes : tree.nodes.modify id change = tree.nodes := by
    apply Array.ext
    · simp
    · intro place here there
      by_cases equal : id = place
      · subst equal
        have found : tree.node id = tree.nodes[id] := by
          simp [ScriptTree.node, Array.getD_eq_getD_getElem?, there]
        rw [Array.getElem_modify_self, ← found, same]
      · rw [Array.getElem_modify_of_ne equal]
  rw [modify, nodes]

end ScriptTree

theorem VarTable.rootFrom_eq_self {table : VarTable} {id : VarId} (free : table.parent? id = none)
    (steps : Nat) : table.rootFrom steps id = id := by
  cases steps with
  | zero => rfl
  | succ steps => rw [rootFrom, free]

theorem VarTable.root_eq_self {table : VarTable} {id : VarId} (free : table.parent? id = none) :
    table.root id = id :=
  rootFrom_eq_self free table.size

namespace RecoveryInput

/-- Where everything is live, the next instruction is the next live one. -/
theorem nextLive_eq {input : RecoveryInput} {code : List Instruction}
    (alone : input.program.IsAlone code) (live : input.table.AllLive input.program) {command : Nat}
    (inside : command < code.length) :
    input.nextLive command =
      .ok (if command + 1 < code.length then some (command + 1) else none) := by
  have split : List.range code.length =
      List.range (command + 1) ++ List.range' (command + 1) (code.length - (command + 1)) := by
    have joined := @List.range'_append_1 0 (command + 1) (code.length - (command + 1))
    rw [Nat.zero_add, Nat.add_sub_of_le inside] at joined
    rw [List.range_eq_range', List.range_eq_range', joined]
  have before : (List.range (command + 1)).filter (fun other => command < other) = [] := by
    rw [List.filter_eq_nil_iff]
    intro other listed
    have bound := List.mem_range.mp listed
    simp only [decide_eq_true_eq]
    omega
  have behind : (List.range' (command + 1) (code.length - (command + 1))).filter
      (fun other => command < other) =
        List.range' (command + 1) (code.length - (command + 1)) := by
    rw [List.filter_eq_self]
    intro other listed
    have bound := (List.mem_range'_1.mp listed).1
    simp only [decide_eq_true_eq]
    omega
  rw [nextLive, alone.owner inside, alone.body, split, List.filter_append, before, behind,
    List.nil_append]
  by_cases more : command + 1 < code.length
  · have count : code.length - (command + 1) = code.length - (command + 1) - 1 + 1 := by omega
    have alive := live.alive (command + 1) (by rw [alone.commandCount]; exact more)
    rw [count, List.range'_succ, firstLive, alive, if_pos more]
    rfl
  · have count : code.length - (command + 1) = 0 := by omega
    rw [count, if_neg more]
    rfl

end RecoveryInput

namespace Recover

/-- A step leads from one state to another and gives a value. -/
def Runs {α : Type} (step : Recover α) (before : Recovery) (value : α) (after : Recovery) : Prop :=
  step.run before = .ok (value, after)

/-- A step leads to a value and a state with a property. -/
def Reaches {α : Type} (step : Recover α) (before : Recovery) (goal : α → Recovery → Prop) : Prop :=
  ∃ value after, Runs step before value after ∧ goal value after

section Runs

variable {α β : Type} {before middle after : Recovery} {value : α} {result : β}

theorem Runs.done (value : α) (recovery : Recovery) :
    Runs (pure value) recovery value recovery := rfl

theorem Runs.bind {step : Recover α} {next : α → Recover β} (first : Runs step before value middle)
    (second : Runs (next value) middle result after) : Runs (step >>= next) before result after := by
  rw [Runs, StateT.run_bind, first]
  exact second

/-- What is left behind the beginning of a step. -/
theorem Runs.rest {step : Recover α} {next : α → Recover β}
    (whole : Runs (step >>= next) before result after) (first : Runs step before value middle) :
    Runs (next value) middle result after := by
  rw [Runs, StateT.run_bind, first] at whole
  exact whole

theorem Runs.reaches {step : Recover α} {goal : α → Recovery → Prop}
    (runs : Runs step before value after) (holds : goal value after) : Reaches step before goal :=
  ⟨value, after, runs, holds⟩

theorem Runs.andThen {step : Recover α} {next : α → Recover β} {goal : β → Recovery → Prop}
    (first : Runs step before value middle) (second : Reaches (next value) middle goal) :
    Reaches (step >>= next) before goal := by
  obtain ⟨result, after, runs, holds⟩ := second
  exact ⟨result, after, first.bind runs, holds⟩

theorem Runs.reads (recovery : Recovery) : Runs get recovery recovery recovery := rfl

theorem Runs.changes (change : Recovery → Recovery) (recovery : Recovery) :
    Runs (modify change) recovery () (change recovery) := rfl

theorem Runs.lift {outcome : Except Fault α} (done : outcome = .ok value) (recovery : Recovery) :
    Runs (liftM outcome : Recover α) recovery value recovery := by
  rw [done]
  rfl

/-- A branch that is taken. -/
theorem Runs.ite_pos {condition : Prop} [Decidable condition] {left right : Recover α}
    (holds : condition) (runs : Runs left before value after) :
    Runs (if condition then left else right) before value after := by
  rw [if_pos holds]
  exact runs

theorem Runs.ite_neg {condition : Prop} [Decidable condition] {left right : Recover α}
    (fails : ¬condition) (runs : Runs right before value after) :
    Runs (if condition then left else right) before value after := by
  rw [if_neg fails]
  exact runs

end Runs

theorem onTree_runs (change : ScriptTree → ScriptTree) (recovery : Recovery) :
    Runs (onTree change) recovery () { recovery with tree := change recovery.tree } := rfl

theorem onStack_runs (change : SlotStack StackEntry → SlotStack StackEntry) (recovery : Recovery) :
    Runs (onStack change) recovery () { recovery with stack := change recovery.stack } := rfl

theorem addNode_runs (node : Node) (recovery : Recovery) :
    Runs (addNode node) recovery recovery.tree.size
      { recovery with tree := (recovery.tree.add node).1 } := rfl

theorem addVar_runs (entry : Variable) (recovery : Recovery) :
    Runs (addVar entry) recovery recovery.tree.vars.size
      { recovery with
        tree := { recovery.tree with vars := (recovery.tree.vars.add entry).1 } } := rfl

theorem onVar_runs (id : VarId) (change : Variable → Variable) (recovery : Recovery) :
    Runs (onVar id change) recovery ()
      { recovery with tree := recovery.tree.modifyVar id change } := rfl

theorem emit_runs (statement : NodeId) (recovery : Recovery) :
    Runs (emit statement) recovery ()
      { recovery with tree := recovery.tree.append recovery.current statement } := rfl

theorem push_runs (entry : StackEntry) (recovery : Recovery) :
    Runs (push entry) recovery () { recovery with stack := recovery.stack.push entry } := rfl

/-- An intermediate value of one slot. -/
theorem pushValue_runs (type : Ty) (value : NodeId) (recovery : Recovery) :
    Runs (pushValue type value 1) recovery recovery.tree.vars.size
      { recovery with
        tree := { recovery.tree with
          vars := (recovery.tree.vars.add (.temporary type value)).1 }
        stack := recovery.stack.push (.var recovery.tree.vars.size) } := rfl

theorem emitNode_runs (node : Node) (recovery : Recovery) :
    Runs (emitNode node) recovery ()
      { recovery with
        tree := (recovery.tree.add node).1.append recovery.current recovery.tree.size } :=
  rfl

/-- Taking a literal that nothing else on the stack shows. -/
theorem takeEntry_literal {recovery : Recovery} {stack : SlotStack StackEntry} {node : NodeId}
    (top : recovery.stack = stack.push (.literal node))
    (fresh : stack.slots.contains (.literal node) = false) :
    Runs (takeEntry (.literal node) 1) recovery node { recovery with stack } := by
  have below : recovery.stack.truncate (recovery.stack.height - 1) = stack := by
    rw [top, SlotStack.height_push, Nat.add_sub_cancel, SlotStack.truncate_push]
  unfold takeEntry
  refine (onStack_runs _ _).bind ((Runs.reads _).bind ?_)
  dsimp only
  rw [below, fresh]
  exact .done _ _

/-- Taking an intermediate value that nothing else on the stack shows. -/
theorem takeEntry_temporary {recovery : Recovery} {stack : SlotStack StackEntry} {var : VarId}
    {entry : Variable} {value : NodeId} (top : recovery.stack = stack.push (.var var))
    (fresh : stack.slots.contains (.var var) = false)
    (known : recovery.tree.vars.get? var = some entry) (temporary : entry.kind = .temp)
    (valued : entry.value = some value) :
    Runs (takeEntry (.var var) 1) recovery value
      { recovery with
        stack
        tree := recovery.tree.modifyVar var fun entry => { entry with consumed := true } } := by
  have below : recovery.stack.truncate (recovery.stack.height - 1) = stack := by
    rw [top, SlotStack.height_push, Nat.add_sub_cancel, SlotStack.truncate_push]
  have kind : recovery.tree.vars.kind var = .temp := by
    rw [VarTable.kind, known]
    exact temporary
  unfold takeEntry
  refine (onStack_runs _ _).bind ((Runs.reads _).bind ?_)
  dsimp only
  rw [below, fresh, if_pos kind]
  unfold useTemporary
  refine (Runs.reads _).bind ?_
  dsimp only
  rw [known, Option.bind_some, valued]
  exact (onVar_runs _ _ _).bind (.done _ _)

/-- A value of one slot is its entry. -/
theorem takeValue_runs {recovery after : Recovery} {stack : SlotStack StackEntry}
    {entry : StackEntry} {value : NodeId} (top : recovery.stack = stack.push entry)
    (taken : Runs (takeEntry entry 1) recovery value after) :
    Runs (takeValue 1) recovery value after := by
  unfold takeValue
  refine (Runs.reads _).bind ?_
  rw [top, SlotStack.popMany?_push]
  exact taken

theorem takeSlot_runs {recovery after : Recovery} {stack : SlotStack StackEntry}
    {entry : StackEntry} {value : NodeId} (top : recovery.stack = stack.push entry)
    (taken : Runs (takeEntry entry 1) recovery value after) :
    Runs takeSlot recovery value after := by
  unfold takeSlot
  refine (Runs.reads _).bind ?_
  rw [top, SlotStack.peek?_push]
  exact taken

section Copies

variable {input : RecoveryInput} {command : Nat} {track : Option StepTrack} {recovery : Recovery}
  {entry : StackEntry} {var : VarId}

/-- A local that waits for no call result and belongs to no aggregate may be used freely. -/
theorem commit_runs {declaration : NodeId} (declares : recovery.tree.vars.declaration? var = some declaration)
    (settled : (recovery.tree.node declaration).settled = recovery.tree.node declaration)
    (free : recovery.tree.vars.parent? var = none) : Runs (commit var) recovery () recovery := by
  have kept : keepCall recovery.tree var = recovery.tree := by
    rw [keepCall, declares]
    exact ScriptTree.modify_eq_self settled
  have runs := onTree_runs (fun tree => keepCall (keepCall tree var) (tree.vars.root var)) recovery
  rw [VarTable.root_eq_self free, kept, kept] at runs
  exact runs

/-- If no variable has just been stepped, a copy does not complete a step. -/
theorem steppedBefore?_eq_none (still : ∀ statement target, track ≠ some (.stepped statement target))
    (entries : List StackEntry) : steppedBefore? input command track entries = .ok none := by
  unfold steppedBefore?
  split
  · exact absurd rfl (still _ _)
  · rfl

theorem copyTop_runs {find : Recovery → Int → Nat → Option (List StackEntry)} {offset : Int}
    {size : Nat} {entries : List StackEntry} {after : Recovery}
    (here : (input.program.instruction command).stackOperand? = some (offset, size))
    (found : find recovery offset size = some entries)
    (copied : Runs (copyEntries input command track entries) recovery () after) :
    Runs (copyTop input command track find) recovery () after := by
  unfold copyTop copyOperand
  rw [here]
  refine (Runs.done _ _).bind ((Runs.reads _).bind ?_)
  rw [found]
  exact copied

/-- The top slot as code addresses it. -/
theorem stackEntries?_top {stack : SlotStack StackEntry} (top : recovery.stack = stack.push entry) :
    stackEntries? recovery (-4) 4 = some [entry] := by
  have height : recovery.stack.height = stack.height + 1 := by rw [top, SlotStack.height_push]
  have range : recovery.stack.range? (-4) 4 = some (stack.height, stack.height + 1) := by
    have found := recovery.stack.range?_slot Nat.one_pos (by omega)
    rwa [height, Nat.add_sub_cancel] at found
  have bound : stack.height < recovery.stack.height := by omega
  rw [stackEntries?, range, Option.map_some, recovery.stack.slice_slot bound]
  simp [top, SlotStack.push, SlotStack.height]

/-- A copy of a literal or an intermediate value is the same entry once more. -/
theorem copyEntries_temporary (still : ∀ statement target, track ≠ some (.stepped statement target))
    (temporary : recovery.isNamed entry = false) :
    Runs (copyEntries input command track [entry]) recovery ()
      { recovery with stack := recovery.stack.push entry } := by
  unfold copyEntries
  rw [steppedBefore?_eq_none still]
  refine (Runs.lift rfl _).bind ((Runs.reads _).bind (Runs.ite_pos ?_ (onStack_runs _ _)))
  rw [temporary]
  rfl

theorem pushUse_runs (committed : Runs (commit var) recovery () recovery) :
    Runs (pushUse var 1) recovery (recovery.tree.add (.reference var)).1.vars.size
      { recovery with
        tree := { (recovery.tree.add (.reference var)).1 with
          vars := ((recovery.tree.add (.reference var)).1.vars.add
            (.temporary (recovery.tree.vars.type var) recovery.tree.size)).1 }
        stack := recovery.stack.push (.var (recovery.tree.add (.reference var)).1.vars.size) } := by
  unfold pushUse
  exact committed.bind ((Runs.reads _).bind ((addNode_runs _ _).bind (pushValue_runs _ _ _)))

/-- A copy of a named variable is a use of it. -/
theorem copyEntries_named (still : ∀ statement target, track ≠ some (.stepped statement target))
    (named : recovery.isNamed (.var var) = true) (committed : Runs (commit var) recovery () recovery) :
    Runs (copyEntries input command track [.var var]) recovery ()
      { recovery with
        tree := { (recovery.tree.add (.reference var)).1 with
          vars := ((recovery.tree.add (.reference var)).1.vars.add
            (.temporary (recovery.tree.vars.type var) recovery.tree.size)).1 }
        stack := recovery.stack.push (.var (recovery.tree.add (.reference var)).1.vars.size)
        track := some (.copied (recovery.tree.add (.reference var)).1.vars.size var) } := by
  have whole : Runs (namedValue [.var var]) recovery (some var) recovery := by
    unfold namedValue
    refine (Runs.reads _).bind ?_
    dsimp only
    rw [named]
    exact .done _ _
  unfold copyEntries
  rw [steppedBefore?_eq_none still]
  refine (Runs.lift rfl _).bind ((Runs.reads _).bind (Runs.ite_neg ?_ ?_))
  · rw [named]
    simp
  · unfold pushCopies
    exact whole.bind ((pushUse_runs committed).bind (Runs.changes _ _))

end Copies

section Visits

variable {input : RecoveryInput} {before middle after : Recovery}

/-- Some live instructions from a given one on are visited. -/
inductive Visits (input : RecoveryInput) : (first count : Nat) → Recovery → Recovery → Prop
  /-- Nothing is left. -/
  | done (first : Nat) (recovery : Recovery) : Visits input first 0 recovery recovery
  /-- An instruction is visited before the others. -/
  | step {first count : Nat} {before middle after : Recovery} (going : before.finished = false)
      (alive : input.table.isDead first = .ok false) (one : Runs (visit input first) before () middle)
      (others : Visits input (first + 1) count middle after) :
      Visits input first (count + 1) before after

theorem Visits.single {first : Nat} (going : before.finished = false)
    (alive : input.table.isDead first = .ok false) (one : Runs (visit input first) before () after) :
    Visits input first 1 before after :=
  .step going alive one (.done _ _)

theorem Visits.append {first count more : Nat} (one : Visits input first count before middle)
    (other : Visits input (first + count) more middle after) :
    Visits input first (count + more) before after := by
  induction one with
  | done first recovery => rwa [Nat.zero_add]
  | step going alive one others induction =>
      rw [Nat.add_right_comm]
      refine .step going alive one (induction ?_)
      rwa [Nat.add_right_comm, Nat.add_assoc]

theorem Visits.append_zero {count more : Nat} (one : Visits input 0 count before middle)
    (other : Visits input count more middle after) : Visits input 0 (count + more) before after :=
  one.append (by rwa [Nat.zero_add])

theorem Visits.runs {first count : Nat} (visits : Visits input first count before after) :
    Runs (visitAll input (List.range' first count)) before () after := by
  induction visits with
  | done first recovery => exact .done _ _
  | step going alive one others induction =>
      rename_i first count before middle after
      have enters : (!before.finished) = true := by rw [going, Bool.not_false]
      rw [List.range'_succ]
      unfold visitAll
      refine (Runs.reads _).bind (Runs.ite_pos enters ?_)
      rw [alive]
      refine (Runs.lift rfl _).bind ?_
      exact one.bind induction

/-- Before an instruction scopes are closed and loops are opened, then it is executed. -/
theorem visit_runs {command : Nat} {closed opened : Recovery}
    (closes : Runs (closeScopes (input.program.position command))
      { before with position := input.program.position command } () closed)
    (opens : Runs (openLoops input command) closed () opened)
    (executes : Runs (execute input command opened.track) { opened with track := none } () after) :
    Runs (visit input command) before () after := by
  unfold visit
  refine (Runs.changes _ _).bind (closes.bind (opens.bind ((Runs.reads _).bind ?_)))
  exact (Runs.changes _ _).bind executes

/-- What happens from a state on happens from every state in which closing scopes has the same result. -/
theorem Visits.of_closes {first count : Nat} {other : Recovery}
    (visits : Visits input first (count + 1) other after) (going : before.finished = false)
    (closes : Runs (closeScopes (input.program.position first))
      { before with position := input.program.position first } () middle)
    (other_closes : Runs (closeScopes (input.program.position first))
      { other with position := input.program.position first } () middle) :
    Visits input first (count + 1) before after := by
  cases visits with
  | step _ alive one others =>
      refine .step going alive ?_ others
      unfold visit at one ⊢
      refine (Runs.changes _ _).bind (closes.bind ?_)
      have rest := one.rest (Runs.changes _ _)
      exact rest.rest other_closes

/-- Only jumps backwards open loops. -/
theorem openLoops_none {command : Nat} {origins : List Nat}
    (known : input.table.origins command = .ok origins)
    (forward : ∀ origin ∈ origins, input.program.opcode origin = .jump →
      input.program.position origin ≤ before.position) :
    Runs (openLoops input command) before () before := by
  have none_latches : latches input before.position origins = .ok [] := by
    clear known
    induction origins with
    | nil => rfl
    | cons origin origins induction =>
        have rest := induction fun other listed => forward other (List.mem_cons_of_mem _ listed)
        have no_latch : ¬(input.program.opcode origin = .jump ∧
            before.position < input.program.position origin) := by
          rintro ⟨jumps, behind⟩
          have order := forward origin List.mem_cons_self jumps
          omega
        simp only [latches, if_neg no_latch, rest]
        rfl
  unfold openLoops
  rw [known]
  refine (Runs.lift rfl _).bind ((Runs.reads _).bind ?_)
  rw [none_latches]
  refine (Runs.lift rfl _).bind ?_
  rw [List.mergeSort_nil]
  exact .done _ _

/-- Outside of a switch there is no case to enter. -/
theorem enterCase_runs (position : Nat) (plain : (before.tree.node before.current).isSwitch = false) :
    Runs (enterCase position) before () before := by
  have no_case : before.caseAt? position = none := by
    unfold Recovery.caseAt?
    simp only [plain]
    rfl
  unfold enterCase
  refine (Runs.reads _).bind ?_
  rw [no_case]
  exact .done _ _

/-- Outside of every scope there is nothing to close. -/
theorem closeScopes_outside (position : Nat) (outside : before.scopes = [])
    (plain : (before.tree.node ScriptTree.root).isSwitch = false) :
    Runs (closeScopes position) before () before := by
  have current : before.current = ScriptTree.root := by rw [Recovery.current, outside]
  unfold closeScopes
  refine (Runs.reads _).bind ?_
  rw [outside]
  exact (Runs.done () before).bind (enterCase_runs position (by rw [current]; exact plain))

/-- Outside of every scope nothing is left to close. -/
theorem complete_outside (outside : before.scopes = [])
    (plain : (before.tree.node ScriptTree.root).isSwitch = false)
    (owed : before.pendingReturn = none) : Runs complete before () before := by
  have free : ¬before.pendingReturn.isSome = true := by
    rw [owed]
    exact Bool.false_ne_true
  unfold complete
  exact (closeScopes_outside _ outside plain).bind
    ((Runs.reads _).bind (Runs.ite_neg free (.done _ _)))

/-- A run visits the instructions and completes the statements. -/
theorem run_eq_ok {sub : Nat}
    (visits : Runs (visitAll input (input.program.body sub)) (input.start sub) () middle)
    (completes : Runs complete middle () after) : input.run sub = .ok after := by
  have both : Runs (do
      visitAll input (input.program.body sub)
      complete) (input.start sub) () after := visits.bind completes
  rw [Runs] at both
  unfold RecoveryInput.run
  dsimp only
  rw [both]
  rfl

end Visits

end Recover
end NwScript
