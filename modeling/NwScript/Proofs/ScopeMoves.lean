import NwScript.Proofs.QuietSteps
import NwScript.Proofs.ScopeOrder

/-!
# Order of scopes in the steps of a recovery

Each step of a recovery that opens or closes a scope keeps what is open in order.  What a step opens
begins at the time of the step or at the end of what it has closed.  Jumps that stay in the subroutine
end inside it.
-/

namespace NwScript

namespace Recovery

variable {before after : Recovery}

/-- Only a branch has an else branch. -/
theorem exists_of_skip? {node : Node} {skip : Nat} (skips : skip? node = some skip) :
    ∃ condition body, node = .branch condition body (some skip) := by
  cases node with
  | branch condition body other => exact ⟨condition, body, congrArg _ skips⟩
  | _ => cases skips

/-- Only a branch without an else branch can get one. -/
theorem exists_of_withSkip? {node changed : Node} {target : Nat}
    (skips : Recover.withSkip? target node = some changed) : ∃ condition body,
      node = .branch condition body none ∧ changed = .branch condition body (some target) := by
  cases node with
  | branch condition body skip =>
      cases skip with
      | none => exact ⟨condition, body, rfl, (Option.some.inj skips).symm⟩
      | some other => cases skips
  | _ => cases skips

end Recovery

namespace RecoveryInput

variable {input : RecoveryInput} {sub command : Nat}

/-- The end of an instruction of a subroutine is not behind the end of the subroutine. -/
theorem positionAfter_le_span (laid : input.program.IsLaidOut)
    (listed : command ∈ input.program.body sub) :
    input.program.positionAfter command ≤ (input.span sub).2 := by
  have nonempty := List.ne_nil_of_mem listed
  have last := Program.lt_of_mem_body (List.getLast_mem nonempty)
  have order : command ≤ (input.program.body sub).getLast nonempty := by
    have bounds := List.mem_range'_1.mp listed
    simp only [Program.body, List.getLast_range']
    omega
  have ends : (input.span sub).2 =
      input.program.positionAfter ((input.program.body sub).getLast nonempty) := by
    simp only [span, List.getLast?_eq_some_getLast nonempty, Option.map_some, Option.getD_some]
  rw [ends]
  refine laid.positionAfter_mono (Program.lt_of_mem_body listed) last ?_
  rcases Nat.lt_or_eq_of_le order with before | same
  · exact Nat.le_of_lt (laid.position_lt before last)
  · rw [← same]

/-- An instruction of a subroutine does not begin before the subroutine. -/
theorem span_le_position (laid : input.program.IsLaidOut)
    (listed : command ∈ input.program.body sub) :
    (input.span sub).1 ≤ input.program.position command := by
  have nonempty := List.ne_nil_of_mem listed
  have order : (input.program.body sub).head nonempty ≤ command := by
    have bounds := List.mem_range'_1.mp listed
    simp only [Program.body, List.head_range']
    omega
  have begins : (input.span sub).1 =
      input.program.position ((input.program.body sub).head nonempty) := by
    simp only [span, List.head?_eq_some_head nonempty, Option.map_some, Option.getD_some]
  rw [begins]
  rcases Nat.lt_or_eq_of_le order with before | same
  · exact Nat.le_of_lt (laid.position_lt before (Program.lt_of_mem_body listed))
  · rw [same]

/-- Where a jump that stays in its subroutine leads is not behind the end of the subroutine. -/
theorem IsConfined.target_le (confined : input.IsConfined sub) (laid : input.program.IsLaidOut)
    (listed : command ∈ input.program.body sub) (jumps : input.program.opcode command ≠ .call)
    {destination : Nat} (leads : input.table.destination command = .ok (some destination)) :
    input.program.position destination ≤ (input.span sub).2 := by
  have there := confined.leads command listed jumps destination leads
  exact Nat.le_trans (Nat.le_of_lt (laid.lt_positionAfter (Program.lt_of_mem_body there)))
    (positionAfter_le_span laid there)

end RecoveryInput

namespace Recover

open RecoveryInput

variable {α β : Type} {input : RecoveryInput} {sub first last time command : Nat}

/-- A step that begins in order at one time ends in order at another one. -/
def Arranges (input : RecoveryInput) (sub first last : Nat) (step : Recover α) : Prop :=
  ∀ before value after, Runs step before value after → input.Orderly sub first [] before →
    input.Orderly sub last [] after

section Steps

variable {step : Recover α} {next : α → Recover β}

/-- What is looked up changes nothing. -/
theorem Runs.of_lift {outcome : Except Fault α} {before after : Recovery} {value : α}
    (runs : Runs (liftM outcome : Recover α) before value after) :
    outcome = .ok value ∧ after = before := by
  cases outcome with
  | error fault => cases runs
  | ok found =>
      cases runs
      exact ⟨rfl, rfl⟩

/-- Steps that keep the scopes keep their order. -/
theorem KeepsScopes.arranges (keeps : KeepsScopes step) (order : first ≤ last) :
    Arranges input sub first last step :=
  fun _ _ _ runs orderly => (orderly.later order).keep (keeps _ _ _ runs)

/-- Quiet steps keep the order of the scopes. -/
theorem Quiets.arranges (quiets : ∀ before, Quiets step before) (order : first ≤ last) :
    Arranges input sub first last step :=
  (Quiets.keeps quiets).arranges order

/-- A step may begin earlier. -/
theorem Arranges.since {earlier : Nat} (arranges : Arranges input sub first last step)
    (order : earlier ≤ first) : Arranges input sub earlier last step :=
  fun _ _ _ runs orderly => arranges _ _ _ runs (orderly.later order)

theorem Arranges.bind {middle : Nat} (begins : Arranges input sub first middle step)
    (rest : ∀ value, Arranges input sub middle last (next value)) :
    Arranges input sub first last (step >>= next) := by
  intro before value after runs orderly
  obtain ⟨_, _, begun, ended⟩ := runs.split
  exact rest _ _ _ _ ended (begins _ _ _ begun orderly)

theorem Arranges.reads {next : Recovery → Recover β}
    (rest : ∀ recovery, Arranges input sub first last (next recovery)) :
    Arranges input sub first last (get >>= next) :=
  fun _ _ _ runs orderly => rest _ _ _ _ (runs.rest (.reads _)) orderly

theorem Arranges.lift {outcome : Except Fault α}
    (rest : ∀ value, outcome = .ok value → Arranges input sub first last (next value)) :
    Arranges input sub first last ((liftM outcome : Recover α) >>= next) := by
  intro before value after runs orderly
  cases done : outcome with
  | ok found => exact rest found done _ _ _ (runs.rest (.lift done _)) orderly
  | error fault =>
      rw [done] at runs
      cases runs

end Steps

section Scopes

variable {before after : Recovery}

theorem addNode_spec {before after : Recovery} {node : Node} {id : NodeId}
    (runs : Runs (addNode node) before id after) :
    id = before.tree.size ∧ id < after.tree.size ∧ after.tree.node id = node := by
  cases runs
  refine ⟨rfl, ?_, ScriptTree.node_add_self _ _⟩
  exact (Nat.lt_succ_self _).trans_eq (ScriptTree.size_add before.tree node).symm

/-- A node that fits is opened. -/
theorem openNode_ordered {node : Node} {body : Body} {id : NodeId}
    (orderly : input.Orderly sub time [] before) (runs : Runs (openNode node) before id after)
    (owns : node.body? = some body) (plain : node.isSwitch = false) (begun : body.start ≤ time)
    (branches : input.BranchesOn sub node)
    (around : (before.range before.current).1 ≤ body.start)
    (fits : (before.current = ScriptTree.root → input.IsConfined sub) →
      body.limit ≤ before.limit before.current) :
    input.Orderly sub time [] after ∧ after.position = before.position ∧
      after.limit after.current = body.limit := by
  obtain ⟨made, added, adding, rest⟩ := runs.split
  obtain ⟨_, emitted, emitting, rest⟩ := rest.split
  obtain ⟨_, entered, entering, last⟩ := rest.split
  cases emitting
  cases entering
  cases last
  obtain ⟨number, inside, new⟩ := addNode_spec adding
  have keeps := addNode_keeps _ _ _ _ adding
  have shape := congrArg Node.shape new
  have other : id ≠ added.current := by
    rw [keeps.current, number]
    exact Nat.ne_of_gt (orderly.lt_size before.current_mem_openNodes)
  rw [← orderly.range_current keeps] at around
  rw [Recovery.limit, ← orderly.range_current keeps, ← keeps.current] at fits
  refine ⟨(orderly.keep keeps).attachEnter inside other shape owns begun branches
    (fun switches => ?_) around fun _ => fits, ?_, ?_⟩
  · exact absurd (plain.symm.trans switches) Bool.false_ne_true
  · cases adding
    rfl
  · have placed := (ScriptTree.shape_append added.tree added.current id id).trans shape
    exact congrArg Prod.snd (Recovery.range_of_shape placed owns)

theorem openElse_ordered {start limit : Nat} (orderly : input.Orderly sub time [] before)
    (begun : start ≤ time) (around : (before.range before.current).1 ≤ start)
    (confined : input.IsConfined sub → limit ≤ (input.span sub).2)
    (runs : Runs (openElse start limit) before () after) :
    input.Orderly sub time [] after ∧ after.position = before.position := by
  have rest := runs.rest (.reads before)
  split at rest
  · cases rest
  · rename_i inside
    obtain ⟨node, opened, opens, last⟩ := rest.split
    cases last
    obtain ⟨ordered, stays, -⟩ := openNode_ordered orderly opens rfl rfl begun
      (by rintro _ _ ⟨⟩) around (orderly.fits inside confined)
    exact ⟨ordered, stays⟩

/-- A scope that has ended is closed, and the else branch behind it is opened. -/
theorem closeScope_ordered {scope : Scope} {outer : List Scope}
    (orderly : input.Orderly sub time [] before) (scopes : before.scopes = scope :: outer)
    (ended : before.limit scope.node ≤ time)
    (runs : Runs (closeScope scope outer (before.limit scope.node)) before () after) :
    input.Orderly sub time [] after ∧ after.position = before.position := by
  have left := orderly.leave scopes ended
  have rest := (runs.rest (.changes _ before)).rest (.reads _)
  dsimp only at rest
  split at rest
  · rename_i skip skips
    obtain ⟨condition, body, node⟩ := Recovery.exists_of_skip? skips
    have there : scope ∈ before.scopes := by
      rw [scopes]
      exact List.mem_cons_self
    obtain ⟨ordered, confined⟩ := orderly.branches scope there { body with children := [] } (some skip)
      (congrArg Node.shape node)
    have range : before.range scope.node = (body.start, body.limit) :=
      Recovery.range_of_shape (congrArg Node.shape node) rfl
    have around := (orderly.respects_around scopes).start (by rw [node]; rfl)
    rw [range] at around
    have begins : body.start ≤ before.limit scope.node := by
      rw [Recovery.limit, range]
      exact ordered
    have opened := openElse_ordered left ended (Nat.le_trans around begins)
      (fun stays => confined stays skip rfl) rest
    exact opened
  · split at rest
    · cases rest
    · split at rest
      · cases rest
        exact ⟨left.keep ⟨rfl, .refl _ _⟩, rfl⟩
      · cases rest
        exact ⟨left, rfl⟩

/-- A case that holds the current position is entered. -/
theorem enterCase_ordered (orderly : input.Orderly sub time [] before)
    (runs : Runs (enterCase time) before () after) :
    input.Orderly sub time [] after ∧ after.position = before.position := by
  have rest := runs.rest (.reads before)
  split at rest
  · rename_i case found
    cases rest
    obtain ⟨body, owns, starts, -, plain⟩ := orderly.case_begun found
    have begun : (before.range case).1 ≤ time := by
      rw [Recovery.range, owns]
      exact starts
    have owned : (before.tree.node case).body?.isSome := by
      rw [owns]
      rfl
    refine ⟨orderly.enter (fun _ listed => absurd listed List.not_mem_nil) owned begun
      (branchesOn_of_plain plain) (fun switches => ?_) ⟨fun construct => ?_, fun checked => ?_⟩, rfl⟩
    · exact absurd (plain.symm.trans (Node.isConstruct_of_isSwitch switches)) Bool.false_ne_true
    · exact absurd (plain.symm.trans construct) Bool.false_ne_true
    · exact absurd (plain.symm.trans (Node.isConstruct_of_isChecked checked)) Bool.false_ne_true
  · cases rest
    exact ⟨orderly, rfl⟩

/-- The outermost of the loops that begin here is opened. -/
theorem openOuterLoop_ordered {latch : Nat} (orderly : input.Orderly sub time [] before)
    (here : before.position = time)
    (confined : input.IsConfined sub → input.program.positionAfter latch ≤ (input.span sub).2)
    (runs : Runs (openOuterLoop input latch) before () after) :
    input.Orderly sub time [] after ∧ after.position = before.position ∧
      after.limit after.current = input.program.positionAfter latch := by
  have rest := runs.rest (.reads before)
  dsimp only at rest
  split at rest
  · cases rest
  · rename_i inside
    have around : (before.range before.current).1 ≤ before.position := here ▸ orderly.current_begun
    have fits := orderly.fits inside confined
    obtain ⟨ends, middle, tested, rest⟩ := rest.split
    obtain ⟨-, rfl⟩ := tested.of_lift
    split at rest
    · obtain ⟨loop, opened, opens, last⟩ := rest.split
      cases last
      exact openNode_ordered orderly opens rfl rfl (Nat.le_of_eq here) (by rintro _ _ ⟨⟩)
        around fits
    · obtain ⟨loop, opened, opens, last⟩ := rest.split
      cases last
      obtain ⟨ordered, stays, limit⟩ := openNode_ordered orderly opens rfl rfl (Nat.le_of_eq here)
        (by rintro _ _ ⟨⟩) around fits
      exact ⟨ordered.keep ⟨rfl, .refl _ _⟩, stays, limit⟩

/-- A loop inside it is opened. -/
theorem openInnerLoops_ordered {latch : Nat} (orderly : input.Orderly sub time [] before)
    (here : before.position = time)
    (inside : input.program.positionAfter latch ≤ before.limit before.current)
    (runs : Runs (openInnerLoops input [latch]) before () after) :
    input.Orderly sub time [] after ∧ after.position = before.position ∧
      input.program.positionAfter latch ≤ after.limit after.current := by
  obtain ⟨ends, middle, tested, rest⟩ := runs.split
  obtain ⟨-, rfl⟩ := tested.of_lift
  cases ends with
  | true =>
      obtain ⟨loop, opened, opens, last⟩ := (rest.rest (.reads _)).split
      cases last
      obtain ⟨ordered, stays, limit⟩ := openNode_ordered orderly opens rfl rfl (Nat.le_of_eq here)
        (by rintro _ _ ⟨⟩) (here ▸ orderly.current_begun) fun _ => inside
      exact ⟨ordered, stays, Nat.le_of_eq limit.symm⟩
  | false =>
      cases rest
      exact ⟨orderly, rfl, inside⟩

end Scopes

section Keeping

open ScriptTree

theorem wrapLocals_keeps (input : RecoveryInput) (command : Nat) (locals : List VarId) :
    KeepsScopes (wrapLocals input command locals) := by
  refine .reads fun recovery => .lift fun continues => ?_
  split
  · dsimp only
    split
    · exact .done ()
    · rename_i first _
      rintro before _ _ ⟨⟩
      let block : Node := .block
        { start := recovery.position, limit := input.program.positionAfter command }
      let statements := (recovery.tree.children recovery.current).drop first
      have moved : (before.tree.add block).1.Retains before.tree.size
          (statements.foldl (ScriptTree.move before.tree.size) (before.tree.add block).1) :=
        .move (Nat.le_refl _) statements _
      have added : before.tree.size < (before.tree.add block).1.size := by
        rw [size_add]
        exact Nat.lt_succ_self _
      refine ⟨rfl, ((Retains.add (Nat.le_refl _) block).trans moved).trans (.insert fun _ => ?_)⟩
      rw [Node.isConstruct_congr (moved.shape _ added), node_add_self]
      exact ⟨Nat.lt_of_lt_of_le added moved.size, rfl⟩
  · exact .done ()

theorem popSlots_keeps (input : RecoveryInput) (command : Nat) :
    KeepsScopes (popSlots input command) := by
  unfold popSlots
  split
  · exact .reads fun _ => .fail _
  · refine (Quiets.keeps fun _ => dropSlots_quiet _ _).bind fun locals => ?_
    split
    · exact wrapLocals_keeps _ _ _
    · exact .done ()

theorem addDispatch_keeps (comparison : Comparison) (target : Nat) :
    KeepsScopes (addDispatch comparison target) := by
  refine .reads fun recovery => ?_
  split
  · exact .notes (fun _ => rfl) fun _ => rfl
  · split
    · exact .notes (fun _ => rfl) fun _ => rfl
    · exact Quiets.keeps fun _ => unclassified_quiet _

theorem dispatchCase_keeps (target : Nat) : KeepsScopes (dispatchCase target) := by
  refine .reads fun recovery => ?_
  split
  · exact Quiets.keeps fun _ => unclassified_quiet _
  · split
    · refine .bind ?_ fun _ => (Quiets.keeps fun _ => onStack_quiet _).bind fun _ =>
        (Quiets.keeps fun _ => consume_quiet _).bind fun _ =>
        addDispatch_keeps _ _
      exact .notes (fun _ => rfl) fun _ => rfl
    · exact Quiets.keeps fun _ => unclassified_quiet _

end Keeping

section Openings

/-- A guarded body is opened. -/
theorem openBranch_arranges {start target : Nat}
    (confined : input.IsConfined sub → target ≤ (input.span sub).2) :
    Arranges input sub start start (openBranch start target) := by
  intro before value after runs orderly
  have rest := runs.rest (.reads before)
  split at rest
  · cases rest
  · rename_i ordered
    split at rest
    · cases rest
    · rename_i inside
      obtain ⟨condition, middle, taken, rest⟩ := rest.split
      obtain ⟨node, opened, opens, last⟩ := rest.split
      cases last
      have keeps := (takeSlot_quiet taken).keeps
      have around := orderly.current_begun
      have fits := orderly.fits inside confined
      rw [Recovery.limit, ← orderly.range_current keeps, ← keeps.current] at fits
      rw [← orderly.range_current keeps] at around
      have branches : input.BranchesOn sub (.branch (some condition) { start, limit := target } none) := by
        rintro _ _ ⟨⟩
        refine ⟨Nat.le_of_not_lt ordered, ?_⟩
        rintro _ _ ⟨⟩
      exact (openNode_ordered (orderly.keep keeps) opens rfl rfl (Nat.le_refl _) branches around
        fits).1

theorem jumpZero_arranges {start target : Nat}
    (confined : input.IsConfined sub → target ≤ (input.span sub).2) :
    Arranges input sub start start (jumpZero start target) := by
  refine .reads fun recovery => ?_
  split
  · refine Quiets.arranges (fun _ => takeSlot_quiet.bind fun condition _ =>
      (setCondition_quiet _ condition).bind fun _ _ => ?_) (Nat.le_refl _)
    exact .notes rfl rfl rfl
  · split
    · exact Quiets.arranges (fun _ => takeSlot_quiet.bind fun condition _ =>
        setCondition_quiet _ condition) (Nat.le_refl _)
    · exact openBranch_arranges confined

/-- A deferred argument is opened, wherever it ends. -/
theorem openClosure_arranges {start limit : Nat} :
    Arranges input sub start start (openClosure start limit) := by
  intro before value after runs orderly
  obtain ⟨node, middle, added, entered⟩ := runs.split
  cases entered
  have new := (addNode_spec added).2.2
  refine (orderly.keep (addNode_keeps _ _ _ _ added)).enter
    (fun _ listed => absurd listed List.not_mem_nil) ?_ ?_ ?_ ?_ ?_
  · show (middle.tree.node node).body?.isSome
    rw [new]
    rfl
  · show (middle.range node).1 ≤ start
    rw [Recovery.range, new]
    exact Nat.le_refl start
  · show input.BranchesOn sub (middle.tree.node node)
    rw [new]
    rintro _ _ ⟨⟩
  · intro switches
    rw [new] at switches
    cases switches
  · refine ⟨fun _ => ?_, fun checked => ?_⟩
    · show (middle.range middle.current).1 ≤ (middle.range node).1
      rw [orderly.range_current (addNode_keeps _ _ _ _ added), Recovery.range, Recovery.range, new]
      exact orderly.current_begun
    · rw [new] at checked
      cases checked

/-- The cases of a switch have no scopes of their own yet. -/
theorem addCases_keeps (switch : NodeId) (ranges : List (CaseRange NodeId)) :
    KeepsScopes (addCases switch ranges) := by
  induction ranges with
  | nil => exact .done ()
  | cons range ranges induction =>
      have case_keeps : KeepsScopes (do
          let case ← addNode (.case range.label { start := range.start, limit := range.limit })
          onTree fun tree => tree.append switch case) := by
        rintro before _ _ ⟨⟩
        refine ⟨rfl, (ScriptTree.Retains.add (Nat.le_refl _) _).trans (.append fun _ => ?_)⟩
        rw [ScriptTree.node_add_self, ScriptTree.size_add]
        exact ⟨Nat.lt_succ_self _, rfl⟩
      have whole := case_keeps.bind fun _ => induction
      rw [bind_assoc] at whole
      exact whole

/-- A switch is opened, wherever it ends. -/
theorem openSwitch_arranges {dispatch : Dispatch} {default : Nat} :
    Arranges input sub (input.program.positionAfter command) (input.program.positionAfter command)
      (openSwitch input command dispatch default) := by
  refine .lift fun found _ => ?_
  split
  · exact Quiets.arranges (fun _ => unclassified_quiet _) (Nat.le_refl _)
  · rename_i pop _
    refine .bind (Quiets.arranges (fun _ => peekExpression_quiet _) (Nat.le_refl _)) fun subject =>
      .bind (Quiets.arranges (fun _ => consume_quiet _) (Nat.le_refl _)) fun _ => ?_
    intro before value after runs orderly
    obtain ⟨switch, added, adding, rest⟩ := runs.split
    obtain ⟨labels, labelled, labelling, rest⟩ := rest.split
    obtain ⟨_, filled, filling, rest⟩ := rest.split
    obtain ⟨_, emitted, emitting, entered⟩ := rest.split
    have grown := orderly.keep (addNode_keeps _ _ _ _ adding)
    have keeps := (addLabels_quiet _ labelling).keeps.trans (addCases_keeps _ _ _ _ _ filling)
    obtain ⟨number, inside, new⟩ := addNode_spec adding
    have other : switch ≠ filled.current := by
      rw [keeps.current, (addNode_keeps _ _ _ _ adding).current, number]
      exact Nat.ne_of_gt (orderly.lt_size before.current_mem_openNodes)
    have shape : (filled.tree.node switch).shape = Node.shape (.switch subject {
        start := input.program.positionAfter command, limit := input.program.position pop }) := by
      rw [keeps.tree.shape switch inside, new]
    cases emitting
    cases entered
    have filled_in := grown.keep keeps
    refine filled_in.attachEnter (Nat.lt_of_lt_of_le inside keeps.tree.size) other shape rfl
      (Nat.le_refl _) (by rintro _ _ ⟨⟩) (fun _ child held => ?_) filled_in.current_begun
      fun checked => absurd checked Bool.false_ne_true
    rcases keeps.tree.child switch inside child held with old | plain
    · rw [ScriptTree.children_eq, new] at old
      exact absurd old List.not_mem_nil
    · exact plain

end Openings

section Jumps

theorem forwardJump_arranges {target behind : Nat} {returns : Bool}
    (confined : input.IsConfined sub → target ≤ (input.span sub).2) :
    Arranges input sub time time (forwardJump target behind returns) := by
  intro before value after runs orderly
  have rest := runs.rest (.reads before)
  dsimp only at rest
  split at rest
  · rename_i leaving
    exact orderly.keep (emitLeave_quiet leaving rest).keeps
  · split at rest
    · exact Quiets.arranges (fun _ => returnPending_quiet) (Nat.le_refl _) _ _ _ rest orderly
    · split at rest
      · rename_i leaving
        exact orderly.keep (emitLeave_quiet leaving rest).keeps
      · split at rest
        · split at rest
          · rename_i node skips
            cases rest
            obtain ⟨condition, body, there, rfl⟩ := Recovery.exists_of_withSkip? skips
            exact orderly.setSkip there confined
          · exact Quiets.arranges (fun _ => otherForwardJump_quiet _ _) (Nat.le_refl _) _ _ _ rest orderly
        · exact Quiets.arranges (fun _ => otherForwardJump_quiet _ _) (Nat.le_refl _) _ _ _ rest orderly

/-- A jump of the subroutine leads somewhere. -/
theorem targetOf_arranges {missing : Obstacle} {next : Nat → Recover α}
    (rest : ∀ destination, input.table.destination command = .ok (some destination) →
      Arranges input sub first last (next destination)) :
    Arranges input sub first last (targetOf input command missing >>= next) := by
  intro before value after runs orderly
  obtain ⟨destination, middle, found, onward⟩ := runs.split
  obtain ⟨answer, same, asked, found⟩ := found.split
  obtain ⟨leads, rfl⟩ := asked.of_lift
  cases answer with
  | none => cases found
  | some target =>
      cases found
      exact rest _ leads _ _ _ onward orderly

variable (laid : input.program.IsLaidOut) (listed : command ∈ input.program.body sub)

include laid listed

theorem conditional_arranges (jumps : input.program.opcode command ≠ .call) :
    Arranges input sub (input.program.positionAfter command) (input.program.positionAfter command)
      (conditional input command) := by
  refine targetOf_arranges fun destination leads => ?_
  dsimp only
  split
  · exact (dispatchCase_keeps _).arranges (Nat.le_refl _)
  · exact jumpZero_arranges fun confined => confined.target_le laid listed jumps leads

theorem jump_arranges (jumps : input.program.opcode command ≠ .call) :
    Arranges input sub (input.program.positionAfter command) (input.program.positionAfter command)
      (jump input command) := by
  refine targetOf_arranges fun destination leads => .reads fun recovery => ?_
  split
  · exact openClosure_arranges
  · split
    · have forgets : KeepsScopes (modify fun recovery => { recovery with dispatch := none }) :=
        .notes (fun _ => rfl) fun _ => rfl
      exact (forgets.arranges (Nat.le_refl _)).bind fun _ => openSwitch_arranges
    · split
      · exact Quiets.arranges (fun _ => backwardJump_quiet _ _) (Nat.le_refl _)
      · split
        · exact forwardJump_arranges fun confined => confined.target_le laid listed jumps leads
        · exact (KeepsScopes.done ()).arranges (Nat.le_refl _)

/-- An instruction takes the time from its position to the one behind it. -/
theorem execute_arranges (track : Option StepTrack) :
    Arranges input sub (input.program.position command) (input.program.positionAfter command)
      (execute input command track) := by
  have lasts := Nat.le_of_lt (laid.lt_positionAfter (Program.lt_of_mem_body listed))
  have jumps {opcode : Opcode} (same : input.program.opcode command = opcode)
      (other : opcode ≠ .call) : input.program.opcode command ≠ .call := same ▸ other
  unfold execute
  dsimp only
  split
  · exact Quiets.arranges (fun _ => reserve_quiet _) lasts
  · exact Quiets.arranges (fun _ => constant_quiet _) lasts
  · exact Quiets.arranges (fun _ => copyTop_quiet _ _ _ _) lasts
  · exact Quiets.arranges (fun _ => copyDown_quiet _ _) lasts
  · exact Quiets.arranges (fun _ => copyTop_quiet _ _ _ _) lasts
  · exact Quiets.arranges (fun _ => copyDown_quiet _ _) lasts
  · exact (popSlots_keeps _ _).arranges lasts
  · exact .reads fun _ => Quiets.arranges (fun _ => stepVariable_quiet _ _ _) lasts
  · exact .reads fun _ => Quiets.arranges (fun _ => stepVariable_quiet _ _ _) lasts
  · exact .reads fun _ => Quiets.arranges (fun _ => stepVariable_quiet _ _ _) lasts
  · exact .reads fun _ => Quiets.arranges (fun _ => stepVariable_quiet _ _ _) lasts
  · exact Quiets.arranges (fun _ => destruct_quiet _) lasts
  · exact Quiets.arranges (fun _ => action_quiet _ _) lasts
  · exact Quiets.arranges (fun _ => call_quiet _ _) lasts
  · rename_i opcode
    exact (jump_arranges laid listed (jumps opcode (by decide))).since lasts
  · rename_i opcode
    refine .lift fun state _ => ?_
    split
    · exact Quiets.arranges (fun _ => onStack_quiet _) lasts
    · exact (conditional_arranges laid listed (jumps opcode (by decide))).since lasts
  · rename_i opcode
    refine .lift fun state _ => ?_
    split
    · exact Quiets.arranges (fun _ => onStack_quiet _) lasts
    · exact (conditional_arranges laid listed (jumps opcode (by decide))).since lasts
  · exact Quiets.arranges (fun _ => leaveSubroutine_quiet _ _) lasts
  · exact Quiets.arranges (fun _ => finishGlobals_quiet) lasts
  · split
    · exact Quiets.arranges (fun _ => binary_quiet _) lasts
    · split
      · exact Quiets.arranges (fun _ => unary_quiet _) lasts
      · exact (KeepsScopes.done ()).arranges lasts

end Jumps

end Recover
end NwScript
