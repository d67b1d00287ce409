import NwScript.Proofs.KeptScopes
import NwScript.Proofs.StatementMoves

/-!
# Quiet steps

Most steps of a recovery neither open nor close a scope.  They add nodes, complete nodes that are there,
append statements without a scope to the innermost open node, and take out or exchange declarations and
stated expressions.  What each of these changes keeps, all such steps keep.
-/

namespace NwScript

namespace Node

/-- A declaration or a stated expression, which may be taken out of a body. -/
def isLoose : Node → Bool
  | declaration _ _ _ | statement _ => true
  | _ => false

/-- Where a node and its else branch end are words. -/
structure IsBounded (node : Node) : Prop where
  /-- Its end is a word. -/
  limit : ∀ body, node.body? = some body → body.limit ≤ Recovery.lastPosition
  /-- The end of its else branch is a word. -/
  skip : ∀ limit, Recovery.skip? node = some limit → limit ≤ Recovery.lastPosition

/-- A new node holds no statements yet, and where it ends is a word. -/
structure IsBlank (node : Node) : Prop extends node.IsBounded where
  /-- It holds nothing. -/
  empty : node.statements = []

/-- What a jump out of a loop or a switch, or to the next turn of a loop, has to stand within. -/
def enclosure? : Node → Option (Node → Bool)
  | leave => some fun node => node.isLoop || node.isSwitch
  | next => some isLoop
  | _ => none

section Loose

variable {node : Node}

/-- Jumps stand within loops and switches, which own statements. -/
theorem owns_of_encloses {around : Node} {test : Node → Bool} (needs : node.enclosure? = some test)
    (passes : test around) : around.body?.isSome := by
  cases node with
  | leave | next =>
      cases needs
      cases around <;> first | rfl | cases passes
  | _ => cases needs

theorem isLoose_outline (node : Node) : node.outline.isLoose = node.isLoose := by
  cases node <;> rfl

theorem isLoose_congr {other : Node} (same : node.outline = other.outline) :
    node.isLoose = other.isLoose :=
  congr_outline isLoose_outline same

theorem body?_of_isLoose (loose : node.isLoose) : node.body? = none := by
  cases node <;> first | rfl | cases loose

/-- What owns no statements has no scope of its own. -/
theorem isConstruct_of_bare (bare : node.body? = none) : node.isConstruct = false := by
  cases node <;> first | rfl | cases bare

theorem isBlank_of_bare (bare : node.body? = none) : node.IsBlank where
  empty := statements_eq_nil bare
  limit _ found := by cases bare.symm.trans found
  skip _ found := by
    cases node with
    | branch => cases bare
    | _ => cases found

end Loose

end Node

namespace ScriptTree

/-- A node without statements is added, or one like another node. -/
def AddsCopy (before after : ScriptTree) : Prop :=
  ∃ node : Node, (node.body? = none ∨ ∃ original, node = before.node original) ∧
    after = (before.add node).1

/-- Copies are added one after another. -/
abbrev AddsCopies : ScriptTree → ScriptTree → Prop :=
  Relation.ReflTransGen AddsCopy

section Copies

variable {tree : ScriptTree} {α β : Type}

/-- A step adds copies, and its result is good. -/
def Duplicates (step : StateM ScriptTree α) (tree : ScriptTree) (Good : α → ScriptTree → Prop) : Prop :=
  tree.AddsCopies (step.run tree).2 ∧ Good (step.run tree).1 (step.run tree).2

theorem Duplicates.bind {step : StateM ScriptTree α} {next : α → StateM ScriptTree β}
    {Good : β → ScriptTree → Prop} {Mid : α → ScriptTree → Prop} (first : Duplicates step tree Mid)
    (second : ∀ value middle, Duplicates (next value) middle Good) :
    Duplicates (step >>= next) tree Good := by
  obtain ⟨copies, good⟩ := second (step.run tree).1 (step.run tree).2
  exact ⟨first.1.trans copies, good⟩

theorem Duplicates.done {Good : α → ScriptTree → Prop} {value : α} (good : Good value tree) :
    Duplicates (pure value) tree Good :=
  ⟨.refl, good⟩

theorem Duplicates.mapM {change : NodeId → StateM ScriptTree NodeId}
    (each : ∀ id tree, Duplicates (change id) tree fun _ _ => True) (ids : List NodeId)
    (tree : ScriptTree) : Duplicates (ids.mapM change) tree fun _ _ => True := by
  induction ids generalizing tree with
  | nil => exact .done trivial
  | cons id ids induction =>
      rw [List.mapM_cons]
      exact (each id tree).bind fun _ middle => (induction middle).bind fun _ _ => .done trivial

/-- A node with other operands owns no statements, or is the node itself. -/
theorem Duplicates.mapOperandsM {change : NodeId → StateM ScriptTree NodeId}
    (each : ∀ id tree, Duplicates (change id) tree fun _ _ => True) {id : NodeId} {node : Node}
    (here : tree.node id = node) : Duplicates (node.mapOperandsM change) tree fun copy after =>
      copy.body? = none ∨ ∃ original, copy = after.node original := by
  cases plain : node.isPlainExpression with
  | true =>
      rw [Node.mapOperandsM_eq change plain]
      refine (Duplicates.mapM each node.operands tree).bind fun copies _ => .done (.inl ?_)
      exact Node.body?_eq_none ((Node.isPlainExpression_withOperands copies node).trans plain)
  | false =>
      rw [Node.mapOperandsM_eq_pure change plain]
      exact .done (.inr ⟨id, here.symm⟩)

theorem duplicates_duplicateFrom (depth : Nat) (id : NodeId) (tree : ScriptTree) :
    Duplicates (duplicateFrom depth id) tree fun _ _ => True := by
  induction depth generalizing id tree with
  | zero => exact .done trivial
  | succ depth induction =>
      obtain ⟨copies, copied⟩ := Duplicates.mapOperandsM induction (rfl : tree.node id = _)
      exact ⟨copies.tail ⟨_, copied, rfl⟩, trivial⟩

/-- Copies of an expression and its operands are added. -/
theorem addsCopies_duplicate (tree : ScriptTree) (id : NodeId) :
    tree.AddsCopies (tree.duplicate id).1 :=
  (duplicates_duplicateFrom (tree.size + 1) id tree).1

end Copies

end ScriptTree

namespace Recovery

/-- What a statement has to stand within is open. -/
def Admits (recovery : Recovery) (node : Node) : Prop :=
  ∀ test, node.enclosure? = some test → ∃ scope ∈ recovery.scopes, test (recovery.tree.node scope.node)

/-- A small change of the state that neither opens nor closes a scope. -/
inductive Quiet (before : Recovery) : Recovery → Prop
  /-- Nothing changes about the nodes, the scopes and the switch that is about to begin. -/
  | note {after : Recovery} (nodes : after.tree.nodes = before.tree.nodes)
      (scopes : after.scopes = before.scopes) (dispatch : after.dispatch = before.dispatch) :
      Quiet before after
  /-- A new node is added, or one like another node. -/
  | add {node : Node} (fits : node.IsBlank ∨ ∃ original, node = before.tree.node original) :
      Quiet before { before with tree := (before.tree.add node).1 }
  /-- A node is completed; a loop may get its condition. -/
  | fill {id : NodeId} {change : Node → Node}
      (shape : (change (before.tree.node id)).shape = (before.tree.node id).shape)
      (statements : (change (before.tree.node id)).statements = (before.tree.node id).statements)
      (closed : isOpenLoop (change (before.tree.node id)) → isOpenLoop (before.tree.node id)) :
      Quiet before { before with tree := before.tree.modify id change }
  /-- A statement that owns none is appended to the innermost open node. -/
  | emit {statement : NodeId} (inside : statement < before.tree.size)
      (bare : (before.tree.node statement).body? = none)
      (admits : before.Admits (before.tree.node statement)) :
      Quiet before { before with tree := before.tree.append before.current statement }
  /-- A declaration or a stated expression is taken out. -/
  | detach {statement : NodeId} (loose : (before.tree.node statement).isLoose) :
      Quiet before { before with tree := (before.tree.detach statement).1 }
  /-- A declaration or a stated expression takes the place of another one. -/
  | replace {old new : NodeId} (former : (before.tree.node old).isLoose)
      (inside : new < before.tree.size) (loose : (before.tree.node new).isLoose) :
      Quiet before { before with tree := (before.tree.replace old new).1 }

/-- Quiet changes one after another. -/
abbrev Quietly : Recovery → Recovery → Prop :=
  Relation.ReflTransGen Quiet

section Keeping

variable {before after : Recovery}

theorem Quiet.keeps (quiet : before.Quiet after) : before.Keeps after := by
  cases quiet with
  | note nodes scopes dispatch => exact ⟨scopes, .of_nodes nodes⟩
  | add fits => exact ⟨rfl, .add (Nat.le_refl _) _⟩
  | fill shape statements closed => exact ⟨rfl, .modify shape statements⟩
  | emit inside bare admits =>
      exact ⟨rfl, .append fun _ => ⟨inside, Node.isConstruct_of_bare bare⟩⟩
  | detach loose => exact ⟨rfl, .detach _ _⟩
  | replace former inside loose =>
      exact ⟨rfl, .replace ⟨inside, Node.isConstruct_of_bare (Node.body?_of_isLoose loose)⟩⟩

theorem Quietly.keeps (quietly : before.Quietly after) : before.Keeps after := by
  induction quietly with
  | refl => exact .refl _
  | tail _ quiet induction => exact induction.trans quiet.keeps

end Keeping

end Recovery

namespace Recover

open ScriptTree Recovery

variable {α β : Type} {before : Recovery}

/-- A step makes quiet changes only. -/
def Quiets (step : Recover α) (before : Recovery) : Prop :=
  ∀ ⦃value after⦄, Runs step before value after → before.Quietly after

section Steps

variable {step : Recover α} {next : α → Recover β}

/-- Quiet steps neither open nor close a scope. -/
theorem Quiets.keeps (quiets : ∀ before, Quiets step before) : KeepsScopes step :=
  fun before _ _ runs => (quiets before runs).keeps

theorem Quiets.bind (first : Quiets step before)
    (second : ∀ value middle, Quiets (next value) middle) : Quiets (step >>= next) before := by
  intro result after runs
  obtain ⟨value, middle, begun, ended⟩ := runs.split
  exact (first begun).trans (second value middle ended)

/-- A step with a known outcome. -/
theorem Quiets.via {value : α} {middle : Recovery} (runs : Runs step before value middle)
    (quietly : before.Quietly middle) (rest : Quiets (next value) middle) :
    Quiets (step >>= next) before :=
  fun _ _ whole => quietly.trans (rest (whole.rest runs))

/-- A last step with a known outcome. -/
theorem Quiets.last {value : α} {after : Recovery} (runs : Runs step before value after)
    (quietly : before.Quietly after) : Quiets step before := by
  intro _ _ whole
  obtain ⟨rfl, rfl⟩ := Prod.mk.inj (Except.ok.inj (runs.symm.trans whole))
  exact quietly

theorem Quiets.done (value : α) : Quiets (pure value) before := by
  rintro _ _ ⟨⟩
  exact .refl

theorem Quiets.fail (fault : Fault) : Quiets (throw fault : Recover α) before := by
  rintro _ _ ⟨⟩

theorem Quiets.reads {next : Recovery → Recover β} (rest : Quiets (next before) before) :
    Quiets (get >>= next) before :=
  .via (.reads before) .refl rest

theorem Quiets.lift {outcome : Except Fault α} (rest : ∀ value, Quiets (next value) before) :
    Quiets ((liftM outcome : Recover α) >>= next) before := by
  cases outcome with
  | ok value => exact .via (.lift rfl before) .refl (rest value)
  | error fault => rintro _ _ ⟨⟩

theorem Quiets.ite {condition : Prop} [Decidable condition] {left right : Recover α}
    (holds : condition → Quiets left before) (fails : ¬condition → Quiets right before) :
    Quiets (if condition then left else right) before := by
  split
  · exact holds ‹_›
  · exact fails ‹_›

/-- Something other than the nodes and the scopes is recorded. -/
theorem Quiets.notes {change : Recovery → Recovery}
    (nodes : (change before).tree.nodes = before.tree.nodes)
    (scopes : (change before).scopes = before.scopes)
    (dispatch : (change before).dispatch = before.dispatch) : Quiets (modify change) before :=
  .last (Runs.changes change before) (.single (.note nodes scopes dispatch))

theorem Quiets.mapM {step : β → Recover α} (each : ∀ item before, Quiets (step item) before)
    (items : List β) : Quiets (items.mapM step) before := by
  induction items generalizing before with
  | nil => exact .done []
  | cons item items induction =>
      rw [List.mapM_cons]
      exact (each item before).bind fun _ _ => induction.bind fun _ _ => .done _

theorem unclassified_quiet (obstacle : Obstacle) :
    Quiets (unclassified obstacle : Recover α) before :=
  .reads (.fail _)

theorem onStack_quiet (change : SlotStack StackEntry → SlotStack StackEntry) :
    Quiets (onStack change) before :=
  .notes rfl rfl rfl

/-- A new node is added. -/
theorem addNode_quiet {node : Node} (blank : node.IsBlank) : Quiets (addNode node) before := by
  rintro _ _ ⟨⟩
  exact .single (.add (.inl blank))

/-- A node that owns no statements is added. -/
theorem addBare_quiet {node : Node} (bare : node.body? = none) : Quiets (addNode node) before :=
  addNode_quiet (Node.isBlank_of_bare bare)

theorem duplicate_quiet (id : NodeId) : Quiets (duplicate id) before := by
  rintro _ _ ⟨⟩
  have copies : ∀ {tree : ScriptTree}, before.tree.AddsCopies tree →
      before.Quietly { before with tree } := by
    intro tree copies
    induction copies with
    | refl => exact .refl
    | tail _ copy induction =>
        obtain ⟨node, known, rfl⟩ := copy
        exact induction.tail (.add (known.imp_left Node.isBlank_of_bare))
  exact copies (before.tree.addsCopies_duplicate id)

theorem addVar_quiet (entry : Variable) : Quiets (addVar entry) before := by
  rintro _ _ ⟨⟩
  exact .single (.note rfl rfl rfl)

theorem onVar_quiet (id : VarId) (change : Variable → Variable) : Quiets (onVar id change) before :=
  .notes rfl rfl rfl

theorem group_quiet (members : List VarId) : Quiets (group members) before := by
  rintro _ _ ⟨⟩
  exact .single (.note rfl rfl rfl)

/-- What a statement has to stand within stays open when nodes are added. -/
theorem admits_add {node : Node} (admits : before.Admits node) (other : Node) :
    { before with tree := (before.tree.add other).1 }.Admits node := by
  intro test needs
  obtain ⟨scope, listed, passes⟩ := admits test needs
  refine ⟨scope, listed, ?_⟩
  show test ((before.tree.add other).1.node scope.node)
  rwa [node_add_of_lt other (lt_of_body? (Node.owns_of_encloses needs passes))]

/-- A statement that owns none is added. -/
theorem addBare_quietly {node : Node} (bare : node.body? = none) :
    before.Quietly { before with tree := (before.tree.add node).1 } :=
  .single (.add (.inl (Node.isBlank_of_bare bare)))

/-- A statement that has just been added is appended. -/
theorem emit_quiet {node : Node} {vars : VarTable} (bare : node.body? = none)
    (admits : before.Admits node) : Quiets (emit before.tree.size)
      { before with tree := { (before.tree.add node).1 with vars } } := by
  have same := node_add_self before.tree node
  refine .last (emit_runs _ _) (.single (.emit ?_ ?_ ?_))
  · exact (Nat.lt_succ_self _).trans_eq (size_add before.tree node).symm
  · exact (congrArg Node.body? same).trans bare
  · show Recovery.Admits _ ((before.tree.add node).1.node before.tree.size)
    rw [same]
    exact admits_add admits node

/-- A statement that owns none is added and appended. -/
theorem emitNode_quiet {node : Node} (bare : node.body? = none) (admits : before.Admits node) :
    Quiets (emitNode node) before :=
  .via (addNode_runs node before) (addBare_quietly bare) (emit_quiet bare admits)

/-- A statement that states an expression needs nothing around it. -/
theorem emitStatement_quiet (value : NodeId) : Quiets (emitNode (.statement value)) before :=
  emitNode_quiet rfl nofun

theorem unknownOperand_quiet : Quiets unknownOperand before :=
  addBare_quiet rfl

theorem push_quiet (entry : StackEntry) : Quiets (push entry) before :=
  onStack_quiet _

theorem pushValue_quiet (type : Ty) (value : NodeId) (width : Nat) :
    Quiets (pushValue type value width) before :=
  (addVar_quiet _).bind fun _ _ => (onStack_quiet _).bind fun _ _ => .done _

end Steps

section Values

theorem discard_quiet (var : VarId) : Quiets (discard var) before := by
  refine .last (onTree_runs _ _) (.single (.note ?_ rfl rfl))
  rw [foldl_modifyVar]

theorem keepCall_quietly (recovery : Recovery) (var : VarId) :
    recovery.Quietly { recovery with tree := keepCall recovery.tree var } := by
  unfold keepCall
  split
  · rename_i declaration _
    refine .single (.fill ?_ ?_ fun opened => ?_)
    all_goals cases here : recovery.tree.node declaration <;> first | rfl | simp_all [isOpenLoop, Node.settled]
  · exact .refl

theorem commit_quiet (var : VarId) : Quiets (commit var) before :=
  .last (onTree_runs _ _)
    ((keepCall_quietly before var).trans (keepCall_quietly _ (before.tree.vars.root var)))

/-- The declaration that a call result waits in is loose. -/
theorem isLoose_of_pendingCall? {var : VarId} {declaration call : NodeId}
    (found : before.pendingCall? var = some (declaration, call)) :
    (before.tree.node declaration).isLoose := by
  obtain ⟨known, declares, here⟩ := Option.bind_eq_some_iff.mp found
  split at here
  · rename_i node
    obtain ⟨rfl, rfl⟩ := Prod.mk.inj (Option.some.inj here)
    rw [node]
    rfl
  · cases here

theorem lt_of_isLoose {tree : ScriptTree} {id : NodeId} (loose : (tree.node id).isLoose) :
    id < tree.size := by
  by_contra outside
  rw [node_of_le (Nat.not_lt.mp outside)] at loose
  cases loose

theorem useNamed_quiet (var : VarId) : Quiets (useNamed var) before := by
  refine .reads ?_
  split
  · rename_i found
    refine .via (onTree_runs _ _) (.single (.detach (isLoose_of_pendingCall? found))) ?_
    exact (discard_quiet var).bind fun _ _ => .done _
  · exact (commit_quiet var).bind fun _ _ => addBare_quiet rfl

theorem useTemporary_quiet (var : VarId) (live : Bool) : Quiets (useTemporary var live) before := by
  refine .reads ?_
  split
  · refine .ite (fun _ => duplicate_quiet _) fun _ => ?_
    exact (onVar_quiet _ _).bind fun _ _ => .done _
  · exact unknownOperand_quiet

theorem takeEntry_quiet (entry : StackEntry) (width : Nat) : Quiets (takeEntry entry width) before := by
  refine (onStack_quiet _).bind fun _ _ => .reads ?_
  dsimp only
  split
  · exact .ite (fun _ => duplicate_quiet _) fun _ => .done _
  · exact .ite (fun _ => useTemporary_quiet _ _) fun _ => useNamed_quiet _

theorem takeSlot_quiet : Quiets takeSlot before := by
  refine .reads ?_
  split
  · exact takeEntry_quiet _ _
  · exact unknownOperand_quiet

theorem groupLoose_quiet (entries : List StackEntry) : Quiets (groupLoose entries) before := by
  refine .reads ?_
  split
  · exact .ite (fun _ => .fail _) fun _ => group_quiet _
  · exact .done _

theorem takeComposite_quiet (entries : List StackEntry) : Quiets (takeComposite entries) before := by
  refine .reads ?_
  dsimp only
  split
  · exact (onStack_quiet _).bind fun _ _ => useNamed_quiet _
  · refine .ite (fun _ => ?_) fun _ => ?_
    · exact takeSlot_quiet.bind fun _ _ => takeSlot_quiet.bind fun _ _ =>
        takeSlot_quiet.bind fun _ _ => addBare_quiet rfl
    · refine (groupLoose_quiet entries).bind fun found _ => ?_
      split
      · exact (onStack_quiet _).bind fun _ _ => useNamed_quiet _
      · exact .fail _

theorem takeValue_quiet (width : Nat) : Quiets (takeValue width) before := by
  refine .reads ?_
  split
  · exact .ite (fun _ => takeEntry_quiet _ _) fun _ => takeComposite_quiet _
  · exact unknownOperand_quiet

theorem peekExpression_quiet (entry : StackEntry) : Quiets (peekExpression entry) before := by
  refine .reads ?_
  split
  · exact duplicate_quiet _
  · refine .ite (fun _ => useTemporary_quiet _ _) fun _ => ?_
    exact (commit_quiet _).bind fun _ _ => addBare_quiet rfl

theorem consume_quiet (entry : StackEntry) : Quiets (consume entry) before := by
  cases entry with
  | literal node => exact .done ()
  | var var => exact onVar_quiet _ _

theorem namedValue_quiet (entries : List StackEntry) : Quiets (namedValue entries) before := by
  refine .reads ?_
  split
  · exact .done _
  · exact .done _
  · split
    · exact .done _
    · exact groupLoose_quiet _

end Values

section Copies

theorem declare_quiet (var : VarId) : Quiets (declare var) before :=
  .via (addNode_runs _ before) (addBare_quietly rfl)
    (.via (onVar_runs _ _ _) (.single (.note rfl rfl rfl)) (emit_quiet rfl nofun))

theorem reserveVector_quiet (kind : VarKind) : Quiets (reserveVector kind) before := by
  refine (addVar_quiet _).bind fun _ _ => (addVar_quiet _).bind fun _ _ =>
    (addVar_quiet _).bind fun _ _ => (group_quiet _).bind fun vector _ =>
      (onStack_quiet _).bind fun _ _ => ?_
  split
  · exact declare_quiet _
  · exact .done ()

theorem reserve_quiet (code : TypeCode) : Quiets (reserve code) before := by
  refine .reads ?_
  dsimp only
  refine .ite (fun _ => reserveVector_quiet _) fun _ => ?_
  exact (addVar_quiet _).bind fun _ _ => (push_quiet _).bind fun _ _ => declare_quiet _

theorem constant_quiet (instruction : Instruction) : Quiets (constant instruction) before := by
  unfold constant
  split
  · exact (addBare_quiet rfl).bind fun _ _ => push_quiet _
  · exact .reads (.fail _)

theorem pushUnknown_quiet (count : Nat) : Quiets (pushUnknown count) before := by
  induction count generalizing before with
  | zero => exact .done ()
  | succ count induction =>
      exact unknownOperand_quiet.bind fun _ _ => (push_quiet _).bind fun _ _ => induction

theorem pushUse_quiet (var : VarId) (width : Nat) : Quiets (pushUse var width) before :=
  (commit_quiet var).bind fun _ _ => .reads ((addBare_quiet rfl).bind fun _ _ => pushValue_quiet _ _ _)

theorem pushEach_quiet (entries : List StackEntry) : Quiets (pushEach entries) before := by
  induction entries generalizing before with
  | nil => exact .done ()
  | cons entry entries induction =>
      cases entry with
      | literal node => exact (push_quiet _).bind fun _ _ => induction
      | var var =>
          refine .reads ?_
          dsimp only
          split
          · exact (pushUse_quiet _ _).bind fun _ _ => induction
          · exact (push_quiet _).bind fun _ _ => induction

theorem pushCopies_quiet (entries : List StackEntry) : Quiets (pushCopies entries) before := by
  refine (namedValue_quiet entries).bind fun found _ => ?_
  split
  · exact (pushUse_quiet _ _).bind fun _ _ => .notes rfl rfl rfl
  · exact pushEach_quiet _

/-- A statement of a step is taken out, and the step becomes a value. -/
theorem stepBefore_quiet (statement : NodeId) (target : VarId) :
    Quiets (stepBefore statement target) before := by
  refine .reads ?_
  split
  · rename_i expression here
    have loose : (before.tree.node statement).isLoose := by
      rw [here]
      rfl
    refine .via (onTree_runs _ _) ((Relation.ReflTransGen.single (.detach loose)).tail
      (.fill ?_ ?_ fun opened => ?_)) (.reads ((pushValue_quiet _ _ _).bind fun _ _ => .done _))
    all_goals cases there : (before.tree.detach statement).1.node expression <;>
      first | rfl | simp_all [isOpenLoop]
  · exact .done ()

theorem copyEntries_quiet (input : RecoveryInput) (command : Nat) (track : Option StepTrack)
    (entries : List StackEntry) : Quiets (copyEntries input command track entries) before := by
  refine .lift fun stepped => ?_
  split
  · exact stepBefore_quiet _ _
  · split
    · exact .reads (.fail _)
    · refine .reads ?_
      exact .ite (fun _ => onStack_quiet _) fun _ => pushCopies_quiet _

theorem copyOperand_quiet (instruction : Instruction) : Quiets (copyOperand instruction) before := by
  unfold copyOperand
  split
  · exact .done _
  · exact .reads (.fail _)

theorem copyTop_quiet (input : RecoveryInput) (command : Nat) (track : Option StepTrack)
    (find : Recovery → Int → Nat → Option (List StackEntry)) :
    Quiets (copyTop input command track find) before := by
  refine (copyOperand_quiet _).bind fun operand _ => .reads ?_
  split
  · exact copyEntries_quiet _ _ _ _
  · exact pushUnknown_quiet _

theorem holdReturn_quiet (width : Nat) : Quiets (holdReturn width) before := by
  refine (takeValue_quiet width).bind fun value _ => Quiets.bind (.notes rfl rfl rfl) fun _ _ => ?_
  exact unknownOperand_quiet.bind fun _ _ => .reads ((pushValue_quiet _ _ _).bind fun _ _ =>
    onVar_quiet _ _)

theorem assign_quiet (targets : List StackEntry) : Quiets (assign targets) before := by
  refine .reads (.ite (fun _ => holdReturn_quiet _) fun _ => ?_)
  refine (namedValue_quiet targets).bind fun found _ => ?_
  split
  · exact .fail _
  · exact (commit_quiet _).bind fun _ _ => (takeValue_quiet _).bind fun _ _ =>
      (addBare_quiet rfl).bind fun _ _ => (addBare_quiet rfl).bind fun _ _ => .reads
        ((pushValue_quiet _ _ _).bind fun _ _ => .done _)

theorem copyDown_quiet (instruction : Instruction)
    (find : Recovery → Int → Nat → Option (List StackEntry)) :
    Quiets (copyDown instruction find) before := by
  refine (copyOperand_quiet _).bind fun operand _ => .reads ?_
  split
  · exact assign_quiet _
  · exact .done ()

theorem dropTemporary_quiet (var : VarId) : Quiets (dropTemporary var) before := by
  refine .reads ?_
  split
  · exact .ite (fun _ => emitStatement_quiet _) fun _ => .done ()
  · exact .done ()

/-- A call result that nobody used becomes a statement in place of the declaration. -/
theorem dropLocal_quiet (var : VarId) : Quiets (dropLocal var) before := by
  refine .reads ?_
  dsimp only
  split
  · rename_i declaration call found
    refine .ite (fun _ => ?_) fun _ => .done _
    have loose := isLoose_of_pendingCall? found
    have inside := lt_of_isLoose loose
    refine .via (onTree_runs _ _) (.single (.note (by rw [foldl_modifyVar]) rfl rfl)) ?_
    rw [foldl_modifyVar]
    refine .via (addNode_runs _ _) (addBare_quietly rfl)
      (.via (onTree_runs _ _) (.single (.replace ?_ ?_ ?_)) (.done _))
    · rw [node_add_of_lt]
      · exact loose
      · exact inside
    · exact (Nat.lt_succ_self _).trans_eq (size_add _ _).symm
    · rw [node_add_self]
      rfl
  · exact .done _

theorem dropSlots_quiet (found : List VarId) (count : Nat) : Quiets (dropSlots found count) before := by
  induction count generalizing before found with
  | zero => exact .done _
  | succ count induction =>
      refine .reads ?_
      split
      · exact .done _
      · refine (onStack_quiet _).bind fun _ _ => ?_
        split
        · exact induction _
        · refine .ite (fun _ => induction _) fun _ => .reads ?_
          split
          · exact (dropTemporary_quiet _).bind fun _ _ => induction _
          · refine (dropLocal_quiet _).bind fun dropped _ => ?_
            split
            · exact induction _
            · exact induction _
          · exact induction _

end Copies

section Operations

theorem stepVariable_quiet (op : StepOp) (target : Option StackEntry) (track : Option StepTrack) :
    Quiets (stepVariable op target track) before := by
  refine .reads ?_
  split
  · exact .fail _
  · refine (commit_quiet _).bind fun _ _ => (addBare_quiet rfl).bind fun _ _ =>
      (addBare_quiet rfl).bind fun expression middle => ?_
    split
    · exact onVar_quiet _ _
    · refine .via (addNode_runs (.statement expression) middle) (addBare_quietly rfl) ?_
      have emitted : Quiets (emit middle.tree.size)
          { middle with tree := (middle.tree.add (.statement expression)).1 } :=
        emit_quiet rfl nofun
      exact emitted.bind fun _ _ => .notes rfl rfl rfl

theorem destruct_quiet (instruction : Instruction) : Quiets (destruct instruction) before := by
  refine .reads ?_
  split
  · dsimp only
    split
    · exact .fail _
    · exact (takeValue_quiet _).bind fun _ _ => (addBare_quiet rfl).bind fun _ _ =>
        (pushValue_quiet _ _ _).bind fun _ _ => .done _
  · exact .fail _

/-- An operator owns no statements. -/
theorem body?_binaryNode? {opcode : Opcode} {left right : NodeId} {node : Node}
    (formed : binaryNode? opcode left right = some node) : node.body? = none := by
  unfold binaryNode? at formed
  split at formed
  · cases formed
    rfl
  · obtain ⟨op, _, rfl⟩ := Option.map_eq_some_iff.mp formed
    rfl

theorem binary_quiet (instruction : Instruction) : Quiets (binary instruction) before := by
  refine .reads ?_
  split
  · exact .fail _
  · dsimp only
    refine (takeValue_quiet _).bind fun _ _ => (takeValue_quiet _).bind fun _ _ => ?_
    split
    · exact .fail _
    · rename_i formed
      exact (addBare_quiet (body?_binaryNode? formed)).bind fun _ _ =>
        (pushValue_quiet _ _ _).bind fun _ _ => .notes rfl rfl rfl

theorem unary_quiet (instruction : Instruction) : Quiets (unary instruction) before := by
  unfold unary
  split
  · exact .reads (.fail _)
  · exact (takeValue_quiet _).bind fun _ _ => (addBare_quiet rfl).bind fun _ _ =>
      (pushValue_quiet _ _ _).bind fun _ _ => .done _

theorem actionArgument_quiet (type : Ty) : Quiets (actionArgument type) before := by
  unfold actionArgument
  split
  · refine .reads ?_
    split
    · exact Quiets.bind (.notes rfl rfl rfl) fun _ _ => .done _
    · exact unknownOperand_quiet
  · exact takeValue_quiet _

theorem action_quiet (catalog : ActionCatalog) (instruction : Instruction) :
    Quiets (action catalog instruction) before := by
  unfold action
  split
  · exact .reads (.fail _)
  · refine (Quiets.mapM (fun type _ => actionArgument_quiet type) _).bind fun _ _ =>
      (addBare_quiet rfl).bind fun _ _ => ?_
    dsimp only
    refine .ite (fun _ => emitStatement_quiet _) fun _ => ?_
    exact (pushValue_quiet _ _ _).bind fun _ _ => .done _

theorem callArgument_quiet (index width : Nat) : Quiets (callArgument index width) before := by
  refine .reads ?_
  exact .ite (fun _ => addBare_quiet rfl) fun _ => takeValue_quiet _

theorem callArguments_quiet (index : Nat) (widths : List Nat) :
    Quiets (callArguments index widths) before := by
  induction widths generalizing index before with
  | nil => exact .done []
  | cons width widths induction =>
      exact (callArgument_quiet _ _).bind fun _ _ => (induction _).bind fun _ _ => .done _

theorem isLoose_of_isOpenDeclaration {node : Node} (declares : isOpenDeclaration node) :
    node.isLoose := by
  cases node <;> first | rfl | cases declares

/-- The slots for a result are declared by declarations. -/
theorem isLoose_of_reservedSlots? {width : Nat} {slots : List VarId}
    (found : reservedSlots? before width = some slots) {var : VarId} (listed : var ∈ slots)
    {declaration : NodeId} (declared : before.tree.vars.declaration? var = some declaration) :
    (before.tree.node declaration).isLoose := by
  obtain ⟨⟨entries, rest⟩, popped, found⟩ := Option.bind_eq_some_iff.mp found
  dsimp only at found
  split at found
  swap
  · cases found
  obtain rfl := Option.some.inj found
  rcases mem_freshLocals listed with none_found | ⟨fresh, -⟩
  · cases none_found
  · unfold isFresh at fresh
    split at fresh
    · rename_i known
      rw [VarTable.declaration?, known] at declared
      obtain rfl := Option.some.inj declared
      exact isLoose_of_isOpenDeclaration (Bool.and_eq_true_iff.mp fresh).2
    · cases fresh

/-- Declarations and stated expressions are taken out one after another. -/
theorem detachAll_quietly {statements : List NodeId} (recovery : Recovery)
    (loose : ∀ statement ∈ statements, (recovery.tree.node statement).isLoose) :
    recovery.Quietly { recovery with
      tree := statements.foldl (fun tree other => (tree.detach other).1) recovery.tree } := by
  induction statements generalizing recovery with
  | nil => exact .refl
  | cons first others induction =>
      refine .head (.detach (loose first List.mem_cons_self)) (induction _ fun other listed => ?_)
      exact Node.isLoose_congr ((Rearranges.detach recovery.tree first).outline other) ▸
        loose other (List.mem_cons_of_mem _ listed)

/-- One of them takes the place of some others. -/
theorem replaceAll_quietly {statements : List NodeId} {new : NodeId} (recovery : Recovery)
    (former : ∀ statement ∈ statements, (recovery.tree.node statement).isLoose)
    (inside : new < recovery.tree.size) (loose : (recovery.tree.node new).isLoose) :
    recovery.Quietly { recovery with tree := recovery.tree.replaceAll new statements } := by
  cases statements with
  | nil => exact .refl
  | cons first others =>
      refine .head (.replace (former first List.mem_cons_self) inside loose)
        (detachAll_quietly _ fun other listed => ?_)
      exact Node.isLoose_congr ((Rearranges.replace recovery.tree first new).outline other) ▸
        former other (List.mem_cons_of_mem _ listed)

theorem declareTogether_quiet {members : List VarId} {aggregate : VarId}
    (loose : ∀ member ∈ members, ∀ declaration,
      before.tree.vars.declaration? member = some declaration →
        (before.tree.node declaration).isLoose) :
    Quiets (declareTogether members aggregate) before := by
  have same := node_add_self before.tree (.declaration aggregate none false)
  refine .via (addNode_runs _ before) (addBare_quietly rfl) (.last (onTree_runs _ _) ?_)
  let added : Recovery :=
    { before with tree := (before.tree.add (.declaration aggregate none false)).1 }
  have replaced : added.Quietly { added with
      tree := added.tree.replaceAll before.tree.size (members.filterMap added.tree.vars.declaration?) } := by
    refine replaceAll_quietly added (fun declaration listed => ?_) ?_ ?_
    · obtain ⟨member, among, declared⟩ := List.mem_filterMap.mp listed
      rw [vars_add] at declared
      have former := loose member among declaration declared
      show ((before.tree.add _).1.node declaration).isLoose
      rw [node_add_of_lt _ (lt_of_isLoose former)]
      exact former
    · exact (Nat.lt_succ_self _).trans_eq (size_add _ _).symm
    · show ((before.tree.add _).1.node before.tree.size).isLoose
      rw [same]
      rfl
  refine replaced.tail (.note ?_ rfl rfl)
  dsimp only
  rw [declareWhole, foldl_modifyVar]
  rfl

/-- Variables that become members keep their declarations. -/
theorem declaration?_of_group {table : VarTable} {members : List VarId} {id : VarId}
    {declaration : NodeId} (declared : (table.group members).1.declaration? id = some declaration) :
    table.declaration? id = some declaration := by
  unfold VarTable.group at declared
  split at declared
  swap
  · exact declared
  obtain ⟨entry, found, known⟩ := Option.bind_eq_some_iff.mp declared
  obtain ⟨old, parent, rfl, former | ⟨_, _, undeclared, _⟩⟩ := VarTable.exists_of_aggregate found
  · rw [VarTable.declaration?, former]
    exact known
  · cases undeclared.symm.trans known

/-- A node is completed with a value, which is linked to it. -/
theorem fillLink_quietly {id value : NodeId} {user : Option NodeId} {change : Node → Node}
    (shape : (change (before.tree.node id)).shape = (before.tree.node id).shape)
    (statements : (change (before.tree.node id)).statements = (before.tree.node id).statements)
    (closed : isOpenLoop (change (before.tree.node id)) → isOpenLoop (before.tree.node id)) :
    before.Quietly { before with tree := (before.tree.modify id change).setParent value user } := by
  have filled : before.Quietly { before with tree := before.tree.modify id change } :=
    .single (.fill shape statements closed)
  exact filled.tail (.note rfl rfl rfl)

theorem resultTarget_quiet {slots : List VarId} (loose : ∀ slot ∈ slots, ∀ declaration,
    before.tree.vars.declaration? slot = some declaration → (before.tree.node declaration).isLoose) :
    Quiets (resultTarget slots) before := by
  unfold resultTarget
  split
  · exact .done _
  · refine .via (group_runs _ _) (.single (.note rfl rfl rfl)) ?_
    split
    · refine (declareTogether_quiet fun slot listed declaration declared => ?_).bind fun _ _ => .done _
      exact loose slot listed declaration (declaration?_of_group declared)
    · exact .done _

theorem attachResult_quiet (call width : Nat) : Quiets (attachResult call width) before := by
  refine .reads ?_
  split
  · exact emitStatement_quiet _
  · rename_i found
    refine (resultTarget_quiet fun slot listed declaration declared =>
      isLoose_of_reservedSlots? found listed declared).bind fun target middle => ?_
    split
    · exact emitStatement_quiet _
    · refine .reads ?_
      split
      · exact .done ()
      · rename_i declaration _
        refine .last (onTree_runs _ _) (fillLink_quietly ?_ ?_ fun opened => ?_)
        all_goals cases there : middle.tree.node declaration <;>
          first | rfl | simp_all [isOpenLoop]

theorem call_quiet (input : RecoveryInput) (command : Nat) : Quiets (call input command) before := by
  unfold call
  split
  · exact unclassified_quiet _
  · dsimp only
    refine (callArguments_quiet _ _).bind fun _ _ => (addBare_quiet rfl).bind fun _ _ => ?_
    split
    · exact emitStatement_quiet _
    · exact attachResult_quiet _ _

end Operations

section Control

theorem returnPending_quiet : Quiets returnPending before :=
  .reads (Quiets.bind (.notes rfl rfl rfl) fun _ _ => emitNode_quiet rfl nofun)

theorem leaveSubroutine_quiet (input : RecoveryInput) (command : Nat) :
    Quiets (leaveSubroutine input command) before := by
  have ends : ∀ recovery : Recovery,
      Quiets (modify fun recovery => { recovery with finished := true }) recovery :=
    fun recovery => .notes rfl rfl rfl
  refine .reads ?_
  split
  · refine .lift fun next => ?_
    split
    · exact returnPending_quiet
    · split
      · exact returnPending_quiet.bind fun _ _ => ends _
      · exact ends _
  · exact .done ()

theorem finishGlobals_quiet : Quiets finishGlobals before := by
  unfold finishGlobals
  refine .notes ?_ ?_ ?_
  all_goals split <;> rfl

theorem setCondition_quiet (loop condition : NodeId) :
    Quiets (setCondition loop condition) before := by
  refine .last (onTree_runs _ _) (fillLink_quietly ?_ ?_ fun opened => ?_)
  all_goals cases there : before.tree.node loop <;> first | rfl | simp_all [isOpenLoop]

/-- A comment needs nothing around it. -/
theorem markJump_quiet : Quiets (emitNode (.comment unresolvedJump)) before :=
  emitNode_quiet rfl nofun

/-- A jump to the next turn stands in the innermost loop. -/
theorem emitNext_quiet {loop : NodeId} (found : before.innermostLoop? = some loop) :
    Quiets (emitNode .next) before := by
  refine emitNode_quiet rfl ?_
  rintro _ ⟨⟩
  obtain ⟨scope, there, -⟩ := Option.map_eq_some_iff.mp found
  have loops : before.isLoop scope := List.find?_some there
  exact ⟨scope, List.mem_of_find?_eq_some there, loops⟩

/-- A jump out of the innermost loop or switch stands there. -/
theorem emitLeave_quiet {target : Nat} {test : Node → Bool} (leaving : leaves before target test) :
    Quiets (emitNode .leave) before := by
  refine emitNode_quiet rfl ?_
  rintro _ ⟨⟩
  obtain ⟨node, found, -⟩ := (Option.any_eq_true _ _).mp leaving
  obtain ⟨scope, there, -⟩ := Option.map_eq_some_iff.mp found
  have breaks := List.find?_some there
  exact ⟨scope, List.mem_of_find?_eq_some there, breaks⟩

theorem backwardJump_quiet (target behind : Nat) : Quiets (backwardJump target behind) before := by
  refine .reads ?_
  split
  · exact unclassified_quiet _
  · rename_i loop found
    exact .ite (fun _ => .done ()) fun _ => .ite (fun _ => emitNext_quiet found) fun _ =>
      .ite (fun _ => markJump_quiet) fun _ => unclassified_quiet _

theorem otherForwardJump_quiet (target : Nat) (returns : Bool) :
    Quiets (otherForwardJump target returns) before := by
  refine .reads (.ite (fun _ => emitNode_quiet rfl nofun) fun _ => .ite (fun continues => ?_)
    fun _ => .ite (fun _ => markJump_quiet) fun _ => unclassified_quiet _)
  obtain ⟨loop, found, -⟩ := (Option.any_eq_true _ _).mp continues
  exact emitNext_quiet found

theorem addLabels_quiet (cases : List (Constant × Nat)) : Quiets (addLabels cases) before := by
  induction cases generalizing before with
  | nil => exact .done []
  | cons entry cases induction =>
      exact (addBare_quiet rfl).bind fun _ _ => induction.bind fun _ _ => .done _

end Control

end Recover
end NwScript
