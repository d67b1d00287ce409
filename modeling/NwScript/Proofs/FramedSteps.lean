import NwScript.Proofs.CommandStatements
import NwScript.Proofs.FramedScopes
import NwScript.Proofs.NestedScopes

/-!
# Frames in the steps of a recovery

What opens a scope puts its node at the end of the innermost open one, an else branch directly behind
the branch that has just been closed.  The cases of a switch are attached before it is opened.  Where no
deferred argument begins, every instruction keeps the frames of the open scopes.
-/

namespace NwScript

namespace CaseRange

variable {α : Type} {bound limit : Nat}

/-- Cases end where other ones begin or at the end of the switch. -/
theorem limit_le_of_mem_divide {cases : List (Option α × Nat)} (word : limit ≤ bound)
    (words : ∀ entry ∈ cases, entry.2 ≤ bound) : ∀ range ∈ divide limit cases, range.limit ≤ bound := by
  fun_induction divide limit cases with
  | case1 => exact fun _ listed => absurd listed List.not_mem_nil
  | case2 label start =>
      rintro range listed
      rw [List.mem_singleton.mp listed]
      exact word
  | case3 label start next following rest induction =>
      obtain ⟨_, behind⟩ := List.forall_mem_cons.mp words
      refine List.forall_mem_cons.mpr ⟨?_, induction behind⟩
      exact behind _ List.mem_cons_self

theorem limit_le_of_mem_ofDispatch {cases : List (α × Nat)} {default : Nat}
    (words : ∀ entry ∈ cases, entry.2 ≤ bound) (other : default ≤ bound) (word : limit ≤ bound) :
    ∀ range ∈ ofDispatch cases default limit, range.limit ≤ bound := by
  refine limit_le_of_mem_divide word fun entry listed => ?_
  rw [ordered, List.mem_mergeSort] at listed
  have labelled : ∀ entry ∈ cases.map fun entry => (some entry.1, entry.2), entry.2 ≤ bound := by
    intro entry listed
    obtain ⟨former, there, rfl⟩ := List.mem_map.mp listed
    exact words former there
  split at listed
  · rcases List.mem_append.mp listed with there | last
    · exact labelled entry there
    · rw [List.mem_singleton.mp last]
      exact other
  · exact labelled entry listed

end CaseRange

namespace Recover

open ScriptTree Recovery

variable {α β : Type} {input : RecoveryInput} {time command : Nat} {before after : Recovery}

/-- A step keeps the frames. -/
def Frames (time : Nat) (step : Recover α) : Prop :=
  ∀ ⦃before value after⦄, Runs step before value after → before.IsFramed time → after.IsFramed time

section Steps

variable {step : Recover α} {next : α → Recover β}

theorem Frames.bind (first : Frames time step) (second : ∀ value, Frames time (next value)) :
    Frames time (step >>= next) := by
  intro before result after runs framed
  obtain ⟨value, middle, begun, ended⟩ := runs.split
  exact second value ended (first begun framed)

theorem Frames.done (value : α) : Frames time (pure value : Recover α) := by
  rintro _ _ _ ⟨⟩ framed
  exact framed

theorem Frames.reads {next : Recovery → Recover β} (rest : ∀ recovery, Frames time (next recovery)) :
    Frames time (get >>= next) :=
  fun _ _ _ runs framed => rest _ (runs.rest (.reads _)) framed

theorem Frames.lift {outcome : Except Fault α} (rest : ∀ value, Frames time (next value)) :
    Frames time ((liftM outcome : Recover α) >>= next) := by
  intro before result after runs framed
  obtain ⟨value, middle, asked, ended⟩ := runs.split
  obtain ⟨-, rfl⟩ := asked.of_lift
  exact rest value ended framed

theorem Quiets.frames (quiets : ∀ before, Quiets step before) : Frames time step :=
  fun before _ _ runs framed => framed.quietly (quiets before runs)

end Steps

section Opening

/-- A construct is opened; an else branch stands directly behind a branch. -/
theorem openNode_framed {node : Node} {id : NodeId} (framed : before.IsFramed time)
    (runs : Runs (openNode node) before id after) (blank : node.IsBlank) (construct : node.isConstruct)
    (behind : node.isOtherwise →
      ∃ last ∈ (before.tree.children before.current).getLast?, (before.tree.node last).isBranch) :
    after.IsFramed time := by
  cases runs
  have added := framed.quiet (.add (.inl blank))
  have here := node_add_self before.tree node
  have current : before.current < before.tree.size := framed.lt_size before.current_mem_openNodes
  refine added.attachEnter ?_ current ?_ (fun follows => ?_) fun child held => ?_
  · exact (Nat.lt_succ_self _).trans_eq (size_add before.tree node).symm
  · exact (congrArg Node.isConstruct here).trans construct
  · obtain ⟨last, ending, guards⟩ := behind ((congrArg Node.isOtherwise here).symm.trans follows)
    have inside := framed.tree.inside (List.mem_of_getLast? ending)
    refine ⟨last, ?_, ?_⟩
    · show last ∈ ((before.tree.add node).1.children before.current).getLast?
      rw [children_eq, node_add_of_lt node current]
      exact ending
    · show ((before.tree.add node).1.node last).isBranch
      rwa [node_add_of_lt node inside]
  · have bare : (before.tree.add node).1.children before.tree.size = [] := by
      rw [children_eq, here, blank.empty]
    exact absurd (bare ▸ held) List.not_mem_nil

/-- Nothing but an else branch has to stand behind a branch. -/
theorem openNode_frames {node : Node} (blank : node.IsBlank) (construct : node.isConstruct)
    (first : node.isOtherwise = false) : Frames time (openNode node) :=
  fun _ _ _ runs framed => openNode_framed framed runs blank construct
    fun follows => by cases first.symm.trans follows

/-- A new construct that ends at some position. -/
theorem isBlank_of_body {node : Node} {body : Body} (owns : node.body? = some body)
    (empty : body.children = []) (word : body.limit ≤ lastPosition) (plain : skip? node = none) :
    node.IsBlank where
  empty := by
    rw [Node.statements, owns]
    exact empty
  limit := fun found same => by
    obtain rfl := Option.some.inj (owns.symm.trans same)
    exact word
  skip := fun limit skips => by cases plain.symm.trans skips

/-- The innermost scope is closed, and the else branch of a branch is opened behind it. -/
theorem closeScope_framed {scope : Scope} {outer : List Scope} {limit : Nat}
    (framed : before.IsFramed time) (scopes : before.scopes = scope :: outer)
    (runs : Runs (closeScope scope outer limit) before () after) : after.IsFramed time := by
  have rest := (runs.rest (.changes _ before)).rest (.reads _)
  dsimp only at rest
  split at rest
  · rename_i skip skips
    obtain ⟨condition, body, here⟩ := exists_of_skip? skips
    have guards : (before.tree.node scope.node).isBranch := by
      rw [here]
      rfl
    obtain ⟨left, nests⟩ := framed.leave scopes (by rw [here]; rfl)
    have opening := rest.rest (.reads _)
    split at opening
    · cases opening
    · obtain ⟨id, opened, opens, last⟩ := opening.split
      cases last
      refine openNode_framed left opens (isBlank_of_body rfl rfl ?_ rfl) rfl fun _ => ⟨scope.node, ?_, guards⟩
      · exact (framed.bounded scope.node).skip skip skips
      · refine nests.last.resolve_left fun isCase => ?_
        rw [here] at isCase
        cases isCase
  · split at rest
    · cases rest
    · rename_i closed
      obtain ⟨left, -⟩ := framed.leave scopes (Bool.eq_false_iff.mpr closed)
      split at rest
      · cases rest
        exact left.quiet (.note rfl rfl rfl)
      · cases rest
        exact left

theorem openOuterLoop_frames (latch : Nat) : Frames time (openOuterLoop input latch) := by
  have word := input.program.positionAfter_le_last latch
  refine .reads fun recovery => ?_
  dsimp only
  split
  · exact Quiets.frames fun _ => unclassified_quiet _
  · refine .lift fun ends => ?_
    split
    · exact (openNode_frames (isBlank_of_body rfl rfl word rfl) rfl rfl).bind fun _ => .done ()
    · exact (openNode_frames (isBlank_of_body rfl rfl word rfl) rfl rfl).bind fun _ =>
        Quiets.frames fun _ => .notes rfl rfl rfl

theorem openInnerLoops_frames (latches : List Nat) : Frames time (openInnerLoops input latches) := by
  induction latches with
  | nil => exact .done ()
  | cons latch latches induction =>
      have word := input.program.positionAfter_le_last latch
      refine .lift fun ends => ?_
      split
      · exact .reads fun _ =>
          (openNode_frames (isBlank_of_body rfl rfl word rfl) rfl rfl).bind fun _ => induction
      · exact induction

/-- A guarded body is opened. -/
theorem openBranch_frames {start target : Nat} (word : target ≤ lastPosition) :
    Frames time (openBranch start target) := by
  refine .reads fun recovery => ?_
  split
  · exact Quiets.frames fun _ => unclassified_quiet _
  · split
    · exact Quiets.frames fun _ => unclassified_quiet _
    · exact (Quiets.frames fun _ => takeSlot_quiet).bind fun _ =>
        (openNode_frames (isBlank_of_body rfl rfl word rfl) rfl rfl).bind fun _ => .done ()

end Opening

section Switches

/-- A switch that is not open yet holds nothing but its cases. -/
structure Gathers (switch : NodeId) (recovery : Recovery) : Prop where
  /-- It is a node of the tree. -/
  inside : switch < recovery.tree.size
  /-- It was made after everything that is open. -/
  newest : ∀ id ∈ recovery.openNodes, id < switch
  /-- It is a switch. -/
  isSwitch : (recovery.tree.node switch).isSwitch
  /-- It holds later cases. -/
  cases : ∀ child ∈ recovery.tree.children switch,
    (recovery.tree.node child).isCase ∧ switch < child

theorem Gathers.closed {switch : NodeId} (gathers : Gathers switch before) :
    switch ∉ before.openNodes :=
  fun listed => Nat.lt_irrefl _ (gathers.newest switch listed)

/-- Labels begin where the cases do. -/
theorem starts_addLabels {cases : List (Constant × Nat)} {labels : List (NodeId × Nat)}
    (runs : Runs (addLabels cases) before labels after) : labels.map (·.2) = cases.map (·.2) := by
  induction cases generalizing before labels with
  | nil =>
      cases runs
      rfl
  | cons entry cases induction =>
      obtain ⟨literal, added, adding, rest⟩ := runs.split
      obtain ⟨others, labelled, labelling, last⟩ := rest.split
      cases last
      exact congrArg (entry.2 :: ·) (induction labelling)

/-- Nodes without statements are added beside the switch. -/
theorem Gathers.add {switch : NodeId} {node : Node} (gathers : Gathers switch before)
    (framed : before.IsFramed time) :
    Gathers switch { before with tree := (before.tree.add node).1 } := by
  refine ⟨Nat.lt_of_lt_of_le gathers.inside (by simp), gathers.newest, ?_, fun child held => ?_⟩
  · show ((before.tree.add node).1.node switch).isSwitch
    rw [node_add_of_lt node gathers.inside]
    exact gathers.isSwitch
  · have former : child ∈ before.tree.children switch := by
      rwa [children_eq, node_add_of_lt node gathers.inside] at held
    show ((before.tree.add node).1.node child).isCase ∧ _
    rw [node_add_of_lt node (framed.tree.inside former)]
    exact gathers.cases child former

/-- A new switch holds nothing. -/
theorem gathers_addNode {switch : NodeId} {node : Node} (framed : before.IsFramed time)
    (isSwitch : node.isSwitch) (empty : node.statements = [])
    (runs : Runs (addNode node) before switch after) : Gathers switch after := by
  cases runs
  have here := node_add_self before.tree node
  refine ⟨(Nat.lt_succ_self _).trans_eq (size_add _ _).symm, fun id listed => framed.lt_size listed,
    (congrArg Node.isSwitch here).trans isSwitch, fun child held => ?_⟩
  have bare : (before.tree.add node).1.children before.tree.size = [] := by
    rw [children_eq, here, empty]
  exact absurd (bare ▸ held) List.not_mem_nil

/-- Labels are added beside the switch. -/
theorem Gathers.addLabels {switch : NodeId} {cases : List (Constant × Nat)}
    {labels : List (NodeId × Nat)} (gathers : Gathers switch before) (framed : before.IsFramed time)
    (runs : Runs (Recover.addLabels cases) before labels after) : Gathers switch after := by
  induction cases generalizing before labels with
  | nil =>
      cases runs
      exact gathers
  | cons entry cases induction =>
      obtain ⟨literal, added, adding, rest⟩ := runs.split
      obtain ⟨others, labelled, labelling, last⟩ := rest.split
      cases last
      cases adding
      exact induction (gathers.add framed)
        (framed.quiet (.add (.inl (Node.isBlank_of_bare rfl)))) labelling

/-- A case is attached to a switch that is not open yet. -/
theorem Gathers.append {switch id : NodeId} (gathers : Gathers switch before)
    (framed : before.IsFramed time) (inside : id < before.tree.size) (newer : switch < id)
    (isCase : (before.tree.node id).isCase) :
    IsFramed time { before with tree := before.tree.append switch id } ∧
      Gathers switch { before with tree := before.tree.append switch id } := by
  have owns : (before.tree.node switch).body?.isSome := by
    have switches := gathers.isSwitch
    cases here : before.tree.node switch <;> first | rfl | simp [here, Node.isSwitch] at switches
  have exchanges := Exchanges.append owns id
  have rearranges := Rearranges.append before.tree switch id
  have ordered : (before.tree.append switch id).IsOrdered := by
    refine framed.tree.append owns inside (fun follows => ?_) (fun _ => ⟨gathers.isSwitch, ?_⟩)
      fun needs => ?_
    · cases here : before.tree.node id <;> simp [here, Node.isCase, Node.isOtherwise] at isCase follows
    · exact fun last ending => (gathers.cases last (List.mem_of_getLast? ending)).1
    · cases here : before.tree.node id <;> simp [here, Node.isCase, Node.enclosure?] at isCase needs
  refine ⟨framed.exchange rfl rfl exchanges ordered rearranges.node
    (fun _ listed => absurd listed List.not_mem_nil) (fun other listed => ?_)
    (.inr (.inr gathers.closed)), ?_, gathers.newest, ?_, fun child held => ?_⟩
  · obtain rfl := List.mem_singleton.mp listed
    refine ⟨?_, ?_, fun _ => gathers.closed⟩ <;>
      cases here : before.tree.node other <;> first | rfl | simp [here, Node.isCase] at isCase
  · exact gathers.inside.trans_eq rearranges.size.symm
  · exact (Node.congr_outline Node.isSwitch_outline (rearranges.outline switch)).trans gathers.isSwitch
  · refine ⟨(Node.congr_outline Node.isCase_outline (rearranges.outline child)).trans ?_, ?_⟩
    all_goals
      rcases exchanges.child_cases held with ⟨_, new⟩ | former
      · obtain rfl := List.mem_singleton.mp new
        first | exact isCase | exact newer
      · first | exact (gathers.cases child former).1 | exact (gathers.cases child former).2

/-- A switch gets its cases. -/
theorem addCases_framed {switch : NodeId} {ranges : List (CaseRange NodeId)}
    (framed : before.IsFramed time) (gathers : Gathers switch before)
    (words : ∀ range ∈ ranges, range.limit ≤ lastPosition)
    (runs : Runs (addCases switch ranges) before () after) :
    after.IsFramed time ∧ Gathers switch after := by
  induction ranges generalizing before with
  | nil =>
      cases runs
      exact ⟨framed, gathers⟩
  | cons range ranges induction =>
      obtain ⟨word, words⟩ := List.forall_mem_cons.mp words
      obtain ⟨id, added, adding, rest⟩ := runs.split
      obtain ⟨_, appended, appending, more⟩ := rest.split
      cases adding
      cases appending
      have here := node_add_self before.tree
        (.case range.label { start := range.start, limit := range.limit })
      have blank : (Node.case range.label { start := range.start, limit := range.limit }).IsBlank :=
        isBlank_of_body rfl rfl word rfl
      have grown := framed.quiet (.add (.inl blank))
      obtain ⟨framed, gathers⟩ := (gathers.add framed).append grown
        ((Nat.lt_succ_self _).trans_eq (size_add _ _).symm) gathers.inside
        ((congrArg Node.isCase here).trans rfl)
      exact induction framed gathers words more

end Switches

section Jumps

/-- A dispatch to a position is added to the switch that is about to begin. -/
theorem addDispatch_frames {comparison : Comparison} {target : Nat} (word : target ≤ lastPosition) :
    Frames time (addDispatch comparison target) := by
  intro before value after runs framed
  have rest := runs.rest (.reads before)
  split at rest
  · cases rest
    refine { framed with dispatch := ?_ }
    rintro _ ⟨⟩ entry listed
    rw [List.mem_singleton.mp listed]
    exact word
  · rename_i dispatch kept
    split at rest
    · cases rest
      refine { framed with dispatch := ?_ }
      rintro _ ⟨⟩ entry listed
      rcases List.mem_append.mp listed with former | new
      · exact framed.dispatch dispatch kept entry former
      · rw [List.mem_singleton.mp new]
        exact word
    · exact framed.quietly (unclassified_quiet _ rest)

theorem dispatchCase_frames {target : Nat} (word : target ≤ lastPosition) :
    Frames time (dispatchCase target) := by
  refine .reads fun recovery => ?_
  split
  · exact Quiets.frames fun _ => unclassified_quiet _
  · split
    · have forgets : Frames time (modify fun recovery : Recovery =>
          { recovery with comparison := none }) := Quiets.frames fun _ => .notes rfl rfl rfl
      exact forgets.bind fun _ => (Quiets.frames fun _ => onStack_quiet _).bind fun _ =>
        (Quiets.frames fun _ => consume_quiet _).bind fun _ => addDispatch_frames word
    · exact Quiets.frames fun _ => unclassified_quiet _

theorem jumpZero_frames {start target : Nat} (word : target ≤ lastPosition) :
    Frames time (jumpZero start target) := by
  refine .reads fun recovery => ?_
  split
  · exact Quiets.frames fun _ => takeSlot_quiet.bind fun condition _ =>
      (setCondition_quiet _ condition).bind fun _ _ => .notes rfl rfl rfl
  · split
    · exact Quiets.frames fun _ => takeSlot_quiet.bind fun condition _ =>
        setCondition_quiet _ condition
    · exact openBranch_frames word

theorem targetOf_quiet (command : Nat) (missing : Obstacle) : Quiets (targetOf input command missing) before := by
  refine .lift fun found => ?_
  split
  · exact .done _
  · exact unclassified_quiet _

theorem forwardJump_frames {target behind : Nat} {returns : Bool} (word : target ≤ lastPosition) :
    Frames time (forwardJump target behind returns) := by
  intro before value after runs framed
  have rest := runs.rest (.reads before)
  dsimp only at rest
  split at rest
  · rename_i leaving
    exact framed.quietly (emitLeave_quiet leaving rest)
  · split at rest
    · exact framed.quietly (returnPending_quiet rest)
    · split at rest
      · rename_i leaving
        exact framed.quietly (emitLeave_quiet leaving rest)
      · split at rest
        · split at rest
          · rename_i node skips
            cases rest
            obtain ⟨condition, body, there, rfl⟩ := exists_of_withSkip? skips
            exact framed.setSkip there word
          · exact framed.quietly (otherForwardJump_quiet _ _ rest)
        · exact framed.quietly (otherForwardJump_quiet _ _ rest)

end Jumps

section Words

/-- Positions are words. -/
theorem position_le_last (laid : input.program.IsLaidOut) (command : Nat) :
    input.program.position command ≤ lastPosition := by
  rcases Nat.eq_zero_or_pos (input.program.position command) with first | behind
  · exact first.trans_le (Nat.zero_le _)
  · exact Nat.le_trans (Nat.le_of_lt (laid.lt_positionAfter (Program.lt_of_lt_position behind)))
      (input.program.positionAfter_le_last command)

variable (laid : input.program.IsLaidOut)

include laid

/-- A switch is opened with its cases. -/
theorem openSwitch_framed {dispatch : Dispatch} {default : Nat} (framed : before.IsFramed time)
    (word : default ≤ lastPosition) (words : ∀ entry ∈ dispatch.cases, entry.2 ≤ lastPosition)
    (runs : Runs (openSwitch input command dispatch default) before () after) :
    after.IsFramed time := by
  obtain ⟨found, _, searching, rest⟩ := runs.split
  obtain ⟨-, rfl⟩ := searching.of_lift
  cases found with
  | none => exact framed.quietly (unclassified_quiet _ rest)
  | some pop =>
      have ends := position_le_last laid pop
      obtain ⟨subject, peeked, peeking, rest⟩ := rest.split
      obtain ⟨_, consumed, consuming, rest⟩ := rest.split
      obtain ⟨switch, added, adding, rest⟩ := rest.split
      obtain ⟨labels, labelled, labelling, rest⟩ := rest.split
      obtain ⟨_, filled, filling, rest⟩ := rest.split
      obtain ⟨_, emitted, emitting, entering⟩ := rest.split
      have begun := (framed.quietly (peekExpression_quiet _ peeking)).quietly (consume_quiet _ consuming)
      have grown := begun.quietly (addNode_quiet (isBlank_of_body rfl rfl ends rfl) adding)
      obtain ⟨rfl, inside, -⟩ := addNode_spec adding
      have gathers := (gathers_addNode begun rfl rfl adding).addLabels grown labelling
      have named := grown.quietly (addLabels_quiet _ labelling)
      have starts : ∀ entry ∈ labels, entry.2 ≤ lastPosition := by
        intro entry listed
        have image := List.mem_map_of_mem (f := (·.2)) listed
        rw [starts_addLabels labelling] at image
        obtain ⟨former, there, same⟩ := List.mem_map.mp image
        exact same ▸ words former there
      obtain ⟨framed, gathers⟩ := addCases_framed named gathers
        (CaseRange.limit_le_of_mem_ofDispatch starts word ends) filling
      cases emitting
      cases entering
      refine framed.attachEnter gathers.inside ?_ (Node.isConstruct_of_isSwitch gathers.isSwitch)
        (fun follows => ?_) fun child held _ => (gathers.cases child held).2
      · exact gathers.newest _ filled.current_mem_openNodes
      · have switches := gathers.isSwitch
        cases here : filled.tree.node consumed.tree.size <;>
          simp [here, Node.isSwitch, Node.isOtherwise] at switches follows

theorem conditional_frames (command : Nat) : Frames time (conditional input command) := by
  refine (Quiets.frames fun _ => targetOf_quiet _ _).bind fun destination => ?_
  have word := position_le_last laid destination
  dsimp only
  split
  · exact dispatchCase_frames word
  · exact jumpZero_frames word

/-- A jump that begins no deferred argument keeps the frames. -/
theorem jump_frames (plain : input.skipsClosure command = false) :
    Frames time (jump input command) := by
  refine (Quiets.frames fun _ => targetOf_quiet _ _).bind fun destination => ?_
  have word := position_le_last laid destination
  intro before value after runs framed
  have rest := runs.rest (.reads before)
  rw [if_neg (Bool.eq_false_iff.mp plain)] at rest
  split at rest
  · rename_i dispatch kept
    have forgotten : IsFramed time { before with dispatch := none } :=
      { framed with dispatch := fun _ none_left => by cases none_left }
    exact openSwitch_framed laid forgotten word (framed.dispatch dispatch kept)
      (rest.rest (.changes _ before))
  · split at rest
    · exact framed.quietly (backwardJump_quiet _ _ rest)
    · split at rest
      · exact forwardJump_frames word rest framed
      · cases rest
        exact framed

end Words

section Executing

variable {action : Nat}

/-- Statements that are wrapped into a block begin with a declaration. -/
theorem isLoose_of_declaresOne {tree : ScriptTree} {locals statements : List NodeId} {first : Nat}
    (found : statements.findIdx? (declaresOne tree locals) = some first) :
    ∀ id ∈ (statements.drop first).head?, (tree.node id).isLoose := by
  intro id listed
  obtain ⟨inside, declares, -⟩ := List.findIdx?_eq_some_iff_getElem.mp found
  rw [List.head?_drop, List.getElem?_eq_getElem inside] at listed
  obtain rfl := Option.some.inj listed
  unfold declaresOne at declares
  split at declares
  · rename_i here
    rw [here]
    rfl
  · cases declares

/-- A block of locals ends where the instruction that pops them does. -/
theorem wrapLocals_framed {locals : List VarId} (sound : before.IsSound input.catalog)
    (forest : before.tree.IsForest) (framed : before.IsFramed (input.program.positionAfter command))
    (runs : Runs (wrapLocals input command locals) before () after) :
    after.IsFramed (input.program.positionAfter command) := by
  obtain ⟨continues, middle, asked, rest⟩ := (runs.rest (.reads before)).split
  obtain ⟨-, rfl⟩ := asked.of_lift
  split at rest
  swap
  · cases rest
    exact framed
  dsimp only at rest
  split at rest
  · cases rest
    exact framed
  rename_i first found
  let terms : Terms := ⟨input.catalog, False, True⟩
  let node : Node :=
    .block { start := middle.position, limit := input.program.positionAfter command }
  have word := input.program.positionAfter_le_last command
  have last := rest.rest (addNode_runs node middle)
  cases last
  have inside : middle.current < middle.tree.size := framed.lt_size middle.current_mem_openNodes
  have same : (middle.tree.add node).1.node middle.current = middle.tree.node middle.current :=
    node_add_of_lt _ inside
  have here : (middle.tree.add node).1.node middle.tree.size = node := node_add_self _ _
  have children : (middle.tree.add node).1.children middle.current =
      middle.tree.children middle.current := by
    rw [children_eq, same, ← children_eq]
  have edit : middle.tree.Edit input.catalog (middle.tree.add node).1 :=
    @addStatement_edit terms middle node rfl rfl fun _ used => absurd used List.not_mem_nil
  have blank : node.IsBlank := isBlank_of_body rfl rfl word rfl
  have wrapping := @IsFramed.wrap _ _ input.catalog middle.tree.size first
    (framed.quiet (.add (.inl blank))) (edit.isForest sound.tree forest) (edit.isSound sound.tree) ?_
    (@isUnplaced_add terms middle node sound rfl rfl) ?_ ?_
    (fun listed => Nat.lt_irrefl _ (framed.lt_size listed)) ?_ ?_
  · rw [ScriptTree.wrapped] at wrapping
    dsimp only at wrapping
    rw [show Recovery.current { middle with tree := (middle.tree.add node).1 } = middle.current from rfl,
      children] at wrapping
    exact wrapping
  · show first ≤ ((middle.tree.add node).1.children middle.current).length
    rw [children]
    exact Nat.le_of_lt (List.findIdx?_eq_some_iff_getElem.mp found).1
  · show (middle.tree.add node).1.children middle.tree.size = []
    rw [children_eq, here]
    rfl
  · exact (congrArg Node.isBlock here).trans rfl
  · refine Nat.le_of_eq ?_
    have placed := @range_of_shape { middle with tree := (middle.tree.add node).1 } middle.tree.size
      node { start := middle.position, limit := input.program.positionAfter command }
      (congrArg Node.shape here) rfl
    exact congrArg Prod.snd placed
  · show ∀ id ∈ (((middle.tree.add node).1.children middle.current).drop first).head?, _
    rw [children]
    intro id listed
    have loose := isLoose_of_declaresOne found id listed
    show ((middle.tree.add node).1.node id).isLoose
    rwa [node_add_of_lt node (lt_of_isLoose loose)]

/-- Instructions that pop slots keep the frames. -/
theorem popSlots_framed (sound : before.IsSound input.catalog)
    (commands : input.catalog.IsCommand action) (rooted : before.IsRooted action)
    (framed : before.IsFramed (input.program.positionAfter command))
    (runs : Runs (popSlots input command) before () after) :
    after.IsFramed (input.program.positionAfter command) := by
  unfold popSlots at runs
  split at runs
  · have rest := runs.rest (.reads _)
    cases rest
  · obtain ⟨locals, middle, dropping, rest⟩ := runs.split
    have dropped := framed.quietly (dropSlots_quiet _ _ dropping)
    obtain ⟨plays, -⟩ := @dropSlots_goes ⟨input.catalog, False, True⟩ _ _ _ sound _ _ dropping
    split at rest
    · exact wrapLocals_framed (plays.isSound sound)
        (plays.isRooted sound id commands rooted).forest dropped rest
    · cases rest
      exact dropped

/-- Where no deferred argument begins, every instruction keeps the frames. -/
theorem execute_framed {track : Option StepTrack} (laid : input.program.IsLaidOut)
    (plain : input.program.opcode command = .jump → input.skipsClosure command = false)
    (sound : before.IsSound input.catalog) (commands : input.catalog.IsCommand action)
    (rooted : before.IsRooted action) (framed : before.IsFramed (input.program.positionAfter command))
    (runs : Runs (execute input command track) before () after) :
    after.IsFramed (input.program.positionAfter command) := by
  have quiet : ∀ {step : Recover Unit}, (∀ before, Quiets step before) →
      Runs step before () after → after.IsFramed (input.program.positionAfter command) :=
    fun quiets runs => framed.quietly (quiets before runs)
  unfold execute at runs
  dsimp only at runs
  split at runs
  · exact quiet (fun _ => reserve_quiet _) runs
  · exact quiet (fun _ => constant_quiet _) runs
  · exact quiet (fun _ => copyTop_quiet _ _ _ _) runs
  · exact quiet (fun _ => copyDown_quiet _ _) runs
  · exact quiet (fun _ => copyTop_quiet _ _ _ _) runs
  · exact quiet (fun _ => copyDown_quiet _ _) runs
  · exact popSlots_framed sound commands rooted framed runs
  · exact quiet (fun _ => .reads (stepVariable_quiet _ _ _)) runs
  · exact quiet (fun _ => .reads (stepVariable_quiet _ _ _)) runs
  · exact quiet (fun _ => .reads (stepVariable_quiet _ _ _)) runs
  · exact quiet (fun _ => .reads (stepVariable_quiet _ _ _)) runs
  · exact quiet (fun _ => destruct_quiet _) runs
  · exact quiet (fun _ => action_quiet _ _) runs
  · exact quiet (fun _ => call_quiet _ _) runs
  · rename_i jumps
    exact jump_frames laid (plain jumps) runs framed
  · obtain ⟨state, middle, asked, rest⟩ := runs.split
    obtain ⟨-, rfl⟩ := asked.of_lift
    split at rest
    · exact quiet (fun _ => onStack_quiet _) rest
    · exact conditional_frames laid command rest framed
  · obtain ⟨state, middle, asked, rest⟩ := runs.split
    obtain ⟨-, rfl⟩ := asked.of_lift
    split at rest
    · exact quiet (fun _ => onStack_quiet _) rest
    · exact conditional_frames laid command rest framed
  · exact quiet (fun _ => leaveSubroutine_quiet _ _) runs
  · exact quiet (fun _ => finishGlobals_quiet) runs
  · split at runs
    · exact quiet (fun _ => binary_quiet _) runs
    · split at runs
      · exact quiet (fun _ => unary_quiet _) runs
      · cases runs
        exact framed

end Executing

end Recover
end NwScript
