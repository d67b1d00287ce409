import NwScript.Proofs.ScopeSteps
import NwScript.Proofs.StructuredReading
import NwScript.Proofs.StructuredTyping

/-!
# Steps of structured code

A print writes one statement, a condition leaves its value on the stack, and neither opens nor closes a
scope.  A loop begins only where a jump from behind leads to, and no jump from behind leads into the
code of a statement.
-/

namespace NwScript
namespace Structured

open Recover

theorem codes_ne_nil {body : List Structured} (filled : body ≠ []) : codes body ≠ [] := by
  cases body with
  | nil => exact absurd rfl filled
  | cons statement rest =>
      rw [codes]
      exact List.append_ne_nil_of_left_ne_nil (code_ne_nil statement) _

theorem codeSize_pos {code : List Instruction} (filled : code ≠ []) : 0 < codeSize code := by
  cases code with
  | nil => exact absurd rfl filled
  | cons instruction code =>
      have positive := instruction.size_pos
      rw [codeSize_cons]
      omega

mutual

/-- A statement does not end with a condition. -/
theorem last_code (statement : Structured) (filled : Filled statement) {instruction : Instruction}
    (last : (code statement).getLast? = some instruction) : instruction.opcode ≠ .jumpZero := by
  cases statement with
  | print text =>
      obtain rfl : _ = instruction := Option.some.inj last
      exact Opcode.noConfusion
  | branch body =>
      rw [Filled] at filled
      rw [code, List.getLast?_append_of_ne_nil _ (codes_ne_nil filled.1)] at last
      exact last_codes body filled.2 last
  | branchElse body other =>
      rw [Filled] at filled
      rw [code, ← List.append_assoc, ← List.append_assoc,
        List.getLast?_append_of_ne_nil _ (codes_ne_nil filled.2.1)] at last
      exact last_codes other filled.2.2 last
  | loop body =>
      rw [code, ← List.append_assoc, List.getLast?_append_of_ne_nil _ (List.cons_ne_nil _ _)] at last
      obtain rfl : _ = instruction := Option.some.inj last
      exact Opcode.noConfusion

theorem last_codes (body : List Structured) (filled : AllFilled body) {instruction : Instruction}
    (last : (codes body).getLast? = some instruction) : instruction.opcode ≠ .jumpZero := by
  cases body with
  | nil => cases last
  | cons statement rest =>
      rw [AllFilled] at filled
      rw [codes] at last
      by_cases ended : codes rest = []
      · rw [ended, List.append_nil] at last
        exact last_code statement filled.1 last
      · rw [List.getLast?_append_of_ne_nil _ ended] at last
        exact last_codes rest filled.2 last

end

/-- No plain jump from behind a stretch of code leads into it. -/
def IsSealed (program : Program) (first last : Nat) : Prop :=
  ∀ origin, last ≤ origin → origin < program.commandCount → program.opcode origin = .jump →
    ∀ target, Jumps.destination? program origin = some target → target < first ∨ last ≤ target

section Sealed

variable {program : Program} {first middle last : Nat}

theorem IsSealed.right (closed : IsSealed program first last) (order : first ≤ middle) :
    IsSealed program middle last := by
  intro origin behind inside jumps target leads
  have aside := closed origin behind inside jumps target leads
  omega

/-- The beginning of a stretch is sealed from what jumps in its rest. -/
theorem IsSealed.left (closed : IsSealed program first last) (order : middle ≤ last)
    (inner : ∀ origin, middle ≤ origin → origin < last → program.opcode origin = .jump →
      ∀ target, Jumps.destination? program origin = some target → target < first ∨ middle ≤ target) :
    IsSealed program first middle := by
  intro origin behind inside jumps target leads
  by_cases outer : last ≤ origin
  · have aside := closed origin outer inside jumps target leads
    omega
  · exact inner origin behind (Nat.not_le.mp outer) jumps target leads

theorem AllRegular.low_le {low high : Nat} (regular : AllRegular program low high middle last)
    {origin target : Nat} (behind : middle ≤ origin) (before : origin < last)
    (jumps : program.opcode origin = .jump)
    (leads : Jumps.destination? program origin = some target) : low ≤ target := by
  obtain ⟨found, _, same, _, above, _⟩ := (regular origin behind before).exists_destination
    (by rw [jumps]; rfl)
  obtain rfl : found = target := Option.some.inj (same.symm.trans leads)
  exact above jumps

/-- The first instruction of a statement that is no loop is sealed. -/
theorem IsSealed.head {low high : Nat} (closed : IsSealed program first last)
    (order : first + 1 ≤ middle) (inside : middle ≤ last)
    (calm : ∀ origin, first + 1 ≤ origin → origin < middle → program.opcode origin ≠ .jump)
    (regular : AllRegular program low high middle last) (above : first < low) :
    IsSealed program first (first + 1) := by
  refine closed.left (Nat.le_trans order inside) fun origin behind before jumps target leads => ?_
  by_cases early : origin < middle
  · exact absurd jumps (calm origin behind early)
  · have bound := regular.low_le (Nat.not_lt.mp early) before jumps leads
    omega

end Sealed

/-- The recovery of structured code whose flow and actions are known, in less than half of all
positions. -/
structure IsSetting (input : RecoveryInput) (body : List Structured) (closing : String) : Prop where
  /-- The program consists of the code. -/
  alone : input.program.IsAlone (routine body closing)
  /-- Nothing is dead. -/
  live : input.table.AllLive input.program
  /-- The actions are known. -/
  knows : Knows input.catalog
  /-- Positions and distances do not overflow. -/
  short : codeSize (routine body closing) < 2 ^ 31

section Setting

variable {input : RecoveryInput} {main : List Structured} {closing : String}
  {first position command : Nat} (setting : IsSetting input main closing)

include setting

theorem IsSetting.increasing : Positions.Increasing input.program :=
  setting.alone.increasing

theorem IsSetting.positionAfter_eq (inside : command < input.program.commandCount) :
    input.program.positionAfter command =
      input.program.position command + (input.program.instruction command).size := by
  rw [setting.alone.commandCount] at inside
  have here := setting.alone.instruction (List.getElem?_eq_getElem inside)
  have total := congrArg codeSize (List.take_append_drop command (routine main closing))
  have short := setting.short
  rw [List.drop_eq_getElem_cons inside, codeSize_append, codeSize_cons] at total
  rw [Program.positionAfter, here, setting.alone.position inside]
  refine Nat.mod_eq_of_lt ?_
  have header : Instruction.headerSize = 13 := rfl
  omega

theorem IsSetting.positionAfter_head {instruction : Instruction} {code : List Instruction}
    (spans : input.program.Spans first position (instruction :: code)) :
    input.program.positionAfter first = position + instruction.size := by
  have inside : first < input.program.commandCount := by
    have bound := spans.inside
    omega
  rw [setting.positionAfter_eq inside, spans.head.1, spans.head.2]

theorem IsSetting.skipsClosure_eq_false (inside : command < input.program.commandCount) :
    input.skipsClosure command = false := by
  rw [RecoveryInput.skipsClosure, Program.follows]
  cases found : input.program.previous? command with
  | none => rfl
  | some previous =>
      have bound := (Program.previous?_lt found).trans inside
      obtain ⟨_, _, _, plain, other⟩ := opcode_ne_of_alone setting.alone bound
      rw [Option.any_some]
      revert plain other
      cases input.program.opcode previous <;> simp [Opcode.isStateSave]

omit setting in
theorem returnsAt_eq_false (starts : IsStart input.program command) :
    input.returnsAt command = false := by
  rw [RecoveryInput.returnsAt]
  rcases starts with opcode | opcode <;> rw [opcode]

/-- No loop begins at an instruction to which no jump from behind leads. -/
theorem IsSetting.openLoops_runs (inside : command < input.program.commandCount)
    (closed : IsSealed input.program command (command + 1)) {before : Recovery}
    (here : before.position = input.program.position command) :
    Runs (openLoops input command) before () before := by
  refine openLoops_none (setting.live.origins command inside) fun origin listed jumps => ?_
  obtain ⟨member, leads⟩ := List.mem_filter.mp listed
  have bound := List.mem_range.mp member
  by_contra behind
  rw [here, Nat.not_le] at behind
  have order : command < origin := by
    by_contra early
    have less := setting.increasing.le_of_le (Nat.not_lt.mp early) inside
    omega
  have aside := closed origin order bound jumps command (of_decide_eq_true leads)
  omega

/-- An action or a test is no place where a jump leads to. -/
theorem IsSetting.isSealed_single (opcode : input.program.opcode command = .action ∨
    input.program.opcode command = .jumpZero) :
    IsSealed input.program command (command + 1) := by
  intro origin behind inside jumps target leads
  rcases regular_or_last setting.alone inside with regular | returns
  · obtain ⟨found, _, same, starts, _⟩ := regular.exists_destination (by rw [jumps]; rfl)
    obtain rfl : found = target := Option.some.inj (same.symm.trans leads)
    by_contra middle
    obtain rfl : found = command := by omega
    rcases starts with start | start <;> rcases opcode with here | here <;>
      exact absurd (start.symm.trans here) Opcode.noConfusion
  · rw [returns] at jumps
    exact absurd jumps Opcode.noConfusion

/-- The jump back at the end of a loop closes a loop with a condition before its body. -/
theorem IsSetting.endsDoLoop_eq_false {body : List Structured} (filled : AllFilled body)
    (nonempty : body ≠ []) (spans : input.program.Spans first position (codes body)) :
    endsDoLoop input (first + (codes body).length) = .ok false := by
  have some_last := codes_ne_nil nonempty
  have positive := List.length_pos_iff.mpr some_last
  have last := List.getLast?_eq_some_getLast some_last
  have other := last_codes body filled last
  rw [List.getLast?_eq_getElem?] at last
  have here := spans.instruction last
  have place : first + ((codes body).length - 1) + 1 = first + (codes body).length := by omega
  have found : input.program.previous? (first + ((codes body).length - 1) + 1) =
      some (first + ((codes body).length - 1)) := by
    have bound := spans.inside
    rw [setting.alone.commandCount] at bound
    exact setting.alone.previous? (by omega)
  rw [place] at found
  have opcode : input.program.opcode (first + ((codes body).length - 1)) ≠ .jumpZero := by
    rw [Program.opcode, here]
    exact other
  rw [endsDoLoop, found]
  dsimp only
  rw [if_neg fun both => opcode both.1]
  rfl

end Setting

section Actions

variable {input : RecoveryInput} {command : Nat} {track : Option StepTrack} {recovery : Recovery}
  {stack : SlotStack StackEntry} {tree : ScriptTree} {node : NodeId}

/-- The slots of a stack are variables. -/
def IsFramed (stack : SlotStack StackEntry) (tree : ScriptTree) : Prop :=
  ∀ entry ∈ stack.slots, ∃ id < tree.vars.size, entry = .var id

theorem IsFramed.mono (framed : IsFramed stack tree) {other : ScriptTree}
    (count : tree.vars.size ≤ other.vars.size) : IsFramed stack other := by
  intro entry listed
  obtain ⟨id, old, same⟩ := framed entry listed
  exact ⟨id, Nat.lt_of_lt_of_le old count, same⟩

theorem IsFramed.contains_literal (framed : IsFramed stack tree) (node : NodeId) :
    stack.slots.contains (.literal node) = false := by
  rw [← Bool.not_eq_true, Array.contains_iff_mem]
  intro listed
  obtain ⟨id, _, same⟩ := framed _ listed
  exact absurd same StackEntry.noConfusion

theorem IsFramed.contains_next (framed : IsFramed stack tree) :
    stack.slots.contains (.var tree.vars.size) = false := by
  rw [← Bool.not_eq_true, Array.contains_iff_mem]
  intro listed
  obtain ⟨id, old, same⟩ := framed _ listed
  obtain rfl := StackEntry.var.inj same
  exact Nat.lt_irrefl _ old

theorem execute_constant {value : Constant}
    (here : input.program.instruction command = .constant value) :
    Runs (execute input command track) recovery ()
      { recovery with
        tree := (recovery.tree.add (.literal value)).1
        stack := recovery.stack.push (.literal recovery.tree.size) } := by
  have executed : execute input command track = constant (.constant value) := by
    simp only [execute, here]
    rfl
  rw [executed]
  exact (addNode_runs _ _).bind (push_runs _ _)

/-- An argument of one slot that is a literal. -/
theorem arguments_runs {type : Ty} (value : type ≠ .action) (slim : max type.slots 1 = 1)
    (top : recovery.stack = stack.push (.literal node))
    (fresh : stack.slots.contains (.literal node) = false) :
    Runs ([type].mapM actionArgument) recovery [node] { recovery with stack } := by
  have one : Runs (actionArgument type) recovery node { recovery with stack } := by
    unfold actionArgument
    refine Runs.ite_neg value ?_
    rw [slim]
    exact takeValue_runs top (takeEntry_literal top fresh)
  rw [List.mapM_cons, List.mapM_nil]
  exact one.bind ((Runs.done _ _).bind (.done _ _))

/-- The value of a condition is pushed. -/
theorem execute_condition (knows : Knows input.catalog)
    (here : input.program.instruction command = .callAction 0 1)
    (top : recovery.stack = stack.push (.literal node))
    (fresh : stack.slots.contains (.literal node) = false) (track : Option StepTrack) :
    Runs (execute input command track) recovery ()
      { recovery with
        tree := { (recovery.tree.add (.action 0 "Random" [node])).1 with
          vars := ((recovery.tree.add (.action 0 "Random" [node])).1.vars.add
            (.temporary .int recovery.tree.size)).1 }
        stack := stack.push (.var (recovery.tree.add (.action 0 "Random" [node])).1.vars.size) } := by
  have executed : execute input command track =
      Recover.action input.catalog (.callAction 0 1) := by
    simp only [execute, here]
    rfl
  have params : actionParams input.catalog 0 1 = [.int] := by
    rw [actionParams, ActionCatalog.argumentTypes?, knows.random]
    rfl
  have name : actionName input.catalog 0 = "Random" := by
    rw [actionName, knows.random]
    rfl
  have result : (input.catalog.returnType? 0).getD .void = .int := by
    rw [ActionCatalog.returnType?, knows.random]
    rfl
  have operand : (Instruction.callAction 0 1).actionOperand? = some (0, 1) := rfl
  rw [executed, Recover.action, operand]
  dsimp only
  rw [params, name, result]
  refine (arguments_runs (by decide) rfl top fresh).bind ((addNode_runs _ _).bind ?_)
  exact Runs.ite_neg (by decide) ((pushValue_runs _ _ _).bind (.done _ _))

/-- A print becomes a statement. -/
theorem execute_print (knows : Knows input.catalog)
    (here : input.program.instruction command = .callAction 1 1)
    (top : recovery.stack = stack.push (.literal node))
    (fresh : stack.slots.contains (.literal node) = false) (track : Option StepTrack) :
    Runs (execute input command track) recovery ()
      { recovery with
        tree := (recovery.tree.add (.action 1 "PrintString" [node])).1.stating recovery.current
          (.statement recovery.tree.size)
        stack } := by
  have executed : execute input command track =
      Recover.action input.catalog (.callAction 1 1) := by
    simp only [execute, here]
    rfl
  have params : actionParams input.catalog 1 1 = [.string] := by
    rw [actionParams, ActionCatalog.argumentTypes?, knows.print]
    rfl
  have name : actionName input.catalog 1 = "PrintString" := by
    rw [actionName, knows.print]
    rfl
  have result : (input.catalog.returnType? 1).getD .void = .void := by
    rw [ActionCatalog.returnType?, knows.print]
    rfl
  have operand : (Instruction.callAction 1 1).actionOperand? = some (1, 1) := rfl
  rw [executed, Recover.action, operand]
  dsimp only
  rw [params, name, result]
  refine (arguments_runs (by decide) rfl top fresh).bind ((addNode_runs _ _).bind ?_)
  exact Runs.ite_pos (by decide) (emitNode_runs _ _)

end Actions

section Conditions

variable {tree after : ScriptTree} {scopes : List Scope} {position : Nat}

/-- The innermost scope is still open at a position. -/
structure Stays (tree : ScriptTree) (scopes : List Scope) (position : Nat) : Prop where
  /-- It exists. -/
  inside : Recovery.innermost scopes < tree.size
  /-- It is no switch. -/
  plain : (tree.node (Recovery.innermost scopes)).isSwitch = false
  /-- It ends behind the position. -/
  beyond : ∀ scope ∈ scopes.head?, ∃ body, (tree.node scope.node).body? = some body ∧
    position < body.limit

theorem Node.isSwitch_mapBody (node : Node) (change : Body → Body) :
    (node.mapBody change).isSwitch = node.isSwitch := by
  cases node <;> rfl

theorem Stays.gains (stays : Stays tree scopes position) {parent : NodeId} {children : List NodeId}
    (gains : tree.Gains after parent children) : Stays after scopes position where
  inside := Nat.lt_of_lt_of_le stays.inside gains.size
  plain := by
    rw [gains.node stays.inside]
    split
    · rw [Node.isSwitch_mapBody, stays.plain]
    · exact stays.plain
  beyond := by
    intro scope listed
    obtain ⟨body, owns, long⟩ := stays.beyond scope listed
    have same := gains.limit (ScriptTree.lt_of_body? (by rw [owns]; rfl))
    rw [owns, Option.map_some, Option.map_eq_some_iff] at same
    obtain ⟨other, found, limit⟩ := same
    exact ⟨other, found, limit ▸ long⟩

theorem Stays.mono (stays : Stays tree scopes position) {earlier : Nat} (order : earlier ≤ position) :
    Stays tree scopes earlier where
  inside := stays.inside
  plain := stays.plain
  beyond := by
    intro scope listed
    obtain ⟨body, owns, long⟩ := stays.beyond scope listed
    exact ⟨body, owns, Nat.lt_of_le_of_lt order long⟩

theorem Stays.isBefore {recovery : Recovery} (stays : Stays recovery.tree scopes position) :
    recovery.IsBefore position scopes := by
  intro scope listed
  obtain ⟨body, owns, long⟩ := stays.beyond scope listed
  rw [Recovery.limit_eq owns]
  exact long

/-- Where the innermost scope is still open, nothing closes. -/
theorem Stays.closes {recovery : Recovery} (stays : Stays recovery.tree recovery.scopes position) :
    Runs (closeScopes position) recovery () recovery :=
  have none_ended : ∀ scope ∈ ([] : List Scope), (recovery.tree.node scope.node).EndsBy position :=
    fun _ listed => absurd listed List.not_mem_nil
  closeScopes_runs rfl none_ended stays.isBefore stays.plain

/-- A tree with a condition whose value has been pushed. -/
def valued (tree : ScriptTree) : ScriptTree :=
  { tree.calling 0 "Random" (.int 2) with
    vars := (tree.vars.add (.temporary .int (tree.size + 1))).1 }

/-- A tree with a condition whose value has been used. -/
def conditioned (tree : ScriptTree) : ScriptTree :=
  (valued tree).modifyVar tree.vars.size fun entry => { entry with consumed := true }

@[simp]
theorem size_conditioned (tree : ScriptTree) : (conditioned tree).size = tree.size + 2 :=
  tree.size_calling 0 "Random" (.int 2)

theorem gains_valued (tree : ScriptTree) (parent : NodeId) : tree.Gains (valued tree) parent [] := by
  refine (tree.gains_calling 0 "Random" (.int 2) parent).trans (.ofVars ?_ parent)
  rw [ScriptTree.vars_calling]
  simp

theorem gains_conditioned (tree : ScriptTree) (parent : NodeId) :
    tree.Gains (conditioned tree) parent [] := by
  refine (gains_valued tree parent).trans (.ofVars ?_ parent)
  simp

theorem calls_calling (tree : ScriptTree) (action : Nat) (name : String) (value : Constant) :
    Calls (tree.calling action name value) tree.size action name value (tree.size + 1) tree.size where
  calls := tree.node_calling_call action name value
  passes := tree.node_calling_literal action name value
  call_inside := by simp
  literal_inside := by simp

theorem calls_conditioned (tree : ScriptTree) :
    Calls (conditioned tree) tree.size 0 "Random" (.int 2) (tree.size + 1) tree.size :=
  { calls_calling tree 0 "Random" (.int 2) with }

theorem hasNoDefaults_condition {catalog : ActionCatalog} (knows : Knows catalog)
    (arguments : List NodeId) : (Node.action 0 "Random" arguments).HasNoDefaults catalog := by
  intro signature found value listed
  obtain rfl := Option.some.inj (knows.random.symm.trans found)
  exact List.mem_singleton.mp listed

theorem hasNoDefaults_print {catalog : ActionCatalog} (knows : Knows catalog)
    (arguments : List NodeId) : (Node.action 1 "PrintString" arguments).HasNoDefaults catalog := by
  intro signature found value listed
  obtain rfl := Option.some.inj (knows.print.symm.trans found)
  exact List.mem_singleton.mp listed

theorem uncut_conditioned {catalog : ActionCatalog} (knows : Knows catalog)
    (uncut : tree.Uncut catalog) : (conditioned tree).Uncut catalog :=
  uncut.calling 0 "Random" (.int 2) (hasNoDefaults_condition knows _)

/-- The state behind the value of a condition. -/
def holding (recovery : Recovery) (position : Nat) : Recovery :=
  { recovery with
    tree := valued recovery.tree
    stack := recovery.stack.push (.var recovery.tree.vars.size)
    position
    track := none }

/-- The state in which the value of a condition has been used. -/
def behindTest (recovery : Recovery) (position : Nat) : Recovery :=
  { recovery with tree := conditioned recovery.tree, position, track := none }

/-- The value of a condition is taken off the stack. -/
theorem takeSlot_holding (recovery : Recovery) (framed : IsFramed recovery.stack recovery.tree)
    (place next : Nat) :
    Runs takeSlot { holding recovery place with position := next, track := none }
      (recovery.tree.size + 1) (behindTest recovery next) := by
  have known := VarTable.get?_add_self recovery.tree.vars
    (.temporary .int (recovery.tree.size + 1))
  exact takeSlot_runs rfl (takeEntry_temporary rfl framed.contains_next known rfl rfl)

end Conditions

section Visits

variable {input : RecoveryInput} {main : List Structured} {closing : String} {first position : Nat}
  {before closed opened after : Recovery}

/-- An instruction before which nothing closes and nothing opens. -/
theorem IsSetting.visits (setting : IsSetting input main closing) {command : Nat}
    (inside : command < input.program.commandCount)
    (closed : IsSealed input.program command (command + 1)) (going : before.finished = false)
    (stays : Stays before.tree before.scopes (input.program.position command))
    (executes : Runs (execute input command before.track)
      { before with position := input.program.position command, track := none } () after) :
    Visits input command 1 before after :=
  .single going (setting.live.alive command inside) (visit_runs (Stays.closes stays)
    (setting.openLoops_runs inside closed rfl) executes)

/-- The literal that a statement begins with. -/
theorem IsSetting.visits_literal (setting : IsSetting input main closing) {value : Constant}
    {code : List Instruction} (spans : input.program.Spans first position (.constant value :: code))
    (going : before.finished = false)
    (closes : Runs (closeScopes position) { before with position } () closed)
    (opens : Runs (openLoops input first) closed () opened) :
    Visits input first 1 before
      { opened with
        tree := (opened.tree.add (.literal value)).1
        stack := opened.stack.push (.literal opened.tree.size)
        track := none } := by
  have inside : first < input.program.commandCount := by
    have bound := spans.inside
    omega
  refine .single going (setting.live.alive first inside) (visit_runs ?_ opens ?_)
  · rw [spans.head.2]
    exact closes
  · exact execute_constant spans.head.1

/-- The condition that a statement begins with. -/
theorem IsSetting.visits_condition (setting : IsSetting input main closing) {distance : Int}
    (spans : input.program.Spans first position (test distance)) (going : before.finished = false)
    (closes : Runs (closeScopes position) { before with position } () closed)
    (opens : Runs (openLoops input first) closed () opened) (still : opened.finished = false)
    (framed : IsFramed opened.stack opened.tree)
    (stays : Stays opened.tree opened.scopes (position + 6)) :
    Visits input first 2 before (holding opened (position + 6)) := by
  have pushes := setting.visits_literal spans going closes opens
  have called := spans.tail.head
  have place : input.program.position (first + 1) = position + 6 := called.2
  have inside : first + 1 < input.program.commandCount := by
    have bound := spans.inside
    rw [length_test] at bound
    omega
  refine pushes.append (setting.visits inside (setting.isSealed_single (.inl ?_)) still ?_ ?_)
  · rw [Program.opcode, called.1]
    rfl
  · rw [place]
    exact stays.gains (.add _ _ (Recovery.innermost opened.scopes))
  · let pushed : Recovery := { opened with
      tree := (opened.tree.add (.literal (.int 2))).1
      stack := opened.stack.push (.literal opened.tree.size)
      position := position + 6
      track := none }
    have top : pushed.stack = opened.stack.push (.literal opened.tree.size) := rfl
    rw [place]
    show Runs (execute input (first + 1) none) pushed () _
    have runs := execute_condition setting.knows called.1 top
      (framed.contains_literal opened.tree.size)
    simpa only [pushed, holding, valued, ScriptTree.calling, ScriptTree.vars_add, ScriptTree.size_add]
      using runs none

/-- A condition and the jump over what it guards. -/
theorem IsSetting.visits_test (setting : IsSetting input main closing) {distance : Int} {target : Nat}
    (spans : input.program.Spans first position (test distance))
    (leads : Jumps.destination? input.program (first + 2) = some target)
    (going : before.finished = false)
    (closes : Runs (closeScopes position) { before with position } () closed)
    (opens : Runs (openLoops input first) closed () opened) (still : opened.finished = false)
    (framed : IsFramed opened.stack opened.tree)
    (stays : Stays opened.tree opened.scopes (position + 11))
    (runs : Runs (jumpZero (position + 17) (input.program.position target))
      { holding opened (position + 6) with position := position + 11, track := none } () after) :
    Visits input first 3 before after := by
  have pushes := setting.visits_condition spans going closes opens still framed
    (stays.mono (by omega))
  have jumped := spans.tail.tail
  have place : input.program.position (first + 2) = position + 11 := jumped.head.2
  have behind : input.program.positionAfter (first + 2) = position + 17 :=
    setting.positionAfter_head jumped
  have inside : first + 2 < input.program.commandCount := by
    have bound := spans.inside
    rw [length_test] at bound
    omega
  refine pushes.append (setting.visits inside (setting.isSealed_single (.inr (opcode_test spans)))
    still ?_ ?_)
  · rw [place]
    exact stays.gains (gains_valued _ (Recovery.innermost opened.scopes))
  · refine execute_jumpZero setting.live inside jumped.head.1
      (skipsOperand_eq_false setting.alone inside) leads ?_
    rw [behind, place]
    exact runs

/-- A print. -/
theorem IsSetting.visits_print (setting : IsSetting input main closing) {text : String}
    (spans : input.program.Spans first position (code (.print text)))
    (going : before.finished = false)
    (closes : Runs (closeScopes position) { before with position } () closed)
    (opens : Runs (openLoops input first) closed () opened) (still : opened.finished = false)
    (framed : IsFramed opened.stack opened.tree)
    (stays : Stays opened.tree opened.scopes (input.program.position (first + 1))) :
    Visits input first 2 before
      { opened with
        tree := (opened.tree.calling 1 "PrintString" (.string text)).stating opened.current
          (.statement (opened.tree.size + 1))
        position := input.program.position (first + 1)
        track := none } := by
  rw [code] at spans
  have pushes := setting.visits_literal spans going closes opens
  have called := spans.tail.head
  have inside : first + 1 < input.program.commandCount := spans.inside.trans' (Nat.lt_succ_self _)
  refine pushes.append (setting.visits inside (setting.isSealed_single (.inl ?_)) still ?_ ?_)
  · rw [Program.opcode, called.1]
    rfl
  · exact stays.gains (.add _ _ (Recovery.innermost opened.scopes))
  · let pushed : Recovery := { opened with
      tree := (opened.tree.add (.literal (.string text))).1
      stack := opened.stack.push (.literal opened.tree.size)
      position := input.program.position (first + 1)
      track := none }
    have top : pushed.stack = opened.stack.push (.literal opened.tree.size) := rfl
    show Runs (execute input (first + 1) none) pushed () _
    have runs := execute_print setting.knows called.1 top
      (framed.contains_literal opened.tree.size)
    simpa only [pushed, ScriptTree.calling, ScriptTree.size_add, Recovery.current_eq] using runs none

end Visits

end Structured
end NwScript
