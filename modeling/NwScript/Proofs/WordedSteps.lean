import NwScript.Proofs.NodeLabels

/-!
# Words of the steps

Every step of a recovery keeps to a vocabulary that allows what the live instructions write: literals,
calls of actions and calls of subroutines.  A step that adds a reference finds a variable that stands for
no value: it is named, or an aggregate.
-/

namespace NwScript

namespace VarTable

/-- A named variable stands for no value. -/
theorem IsUnnamed.isPlain {table : VarTable} (unnamed : table.IsUnnamed) {id : VarId}
    (named : table.kind id ≠ .temp) : table.IsPlain id := by
  cases found : table.get? id with
  | none => simp [kind, found] at named
  | some entry =>
      have class_of : table.kind id = entry.kind := by rw [kind, found]
      exact ⟨entry, found, unnamed.value found (class_of ▸ named)⟩

/-- An aggregate that holds a variable stands for no value. -/
theorem IsUnnamed.isPlain_of_parent? {table : VarTable} (unnamed : table.IsUnnamed) {id parent : VarId}
    (held : table.parent? id = some parent) : table.IsPlain parent := by
  obtain ⟨entry, found, belongs⟩ := Option.bind_eq_some_iff.mp held
  exact unnamed.parent found belongs

end VarTable

namespace Recover

open ScriptTree

variable {words : Vocabulary} {before : Recovery} {input : RecoveryInput}

section Values

theorem isPlain_of_isNamed (worded : before.IsWorded words) {var : VarId}
    (named : before.isNamed (.var var)) : before.tree.vars.IsPlain var :=
  worded.tree.vars.isPlain (by simpa [Recovery.isNamed] using named)

theorem isPlain_of_wholeAggregate? (worded : before.IsWorded words) {entries : List StackEntry}
    {aggregate : VarId} (whole : before.wholeAggregate? entries = some aggregate) :
    before.tree.vars.IsPlain aggregate := by
  unfold Recovery.wholeAggregate? at whole
  split at whole
  · obtain ⟨parent, held, same⟩ := Option.bind_eq_some_iff.mp whole
    split at same
    · cases same
      exact worded.tree.vars.isPlain_of_parent? held
    · cases same
  · cases whole

theorem discard_abides (var : VarId) : Abides words (discard var) before := by
  refine onTree_abides (Retells.foldl (fun tree id => .modifyVar fun entry _ => ?_) _ _)
  exact ⟨rfl, rfl, .rfl, fun named => absurd rfl named⟩

theorem commit_abides (var : VarId) : Abides words (commit var) before :=
  onTree_abides ((Retells.keepCall _ _).trans (.keepCall _ _))

/-- A variable is used up. -/
theorem useUp_abides (var : VarId) :
    Abides words (onVar var fun entry => { entry with consumed := true }) before :=
  onVar_abides fun _ _ => ⟨rfl, rfl, .rfl, fun named => named⟩

theorem useNamed_abides {var : VarId} (plain : before.tree.vars.IsPlain var) :
    Abides words (useNamed var) before := by
  refine .reads ?_
  split
  · exact (onTree_abides (.of_rearranges (.detach _ _))).bind fun _ _ => (discard_abides var).bind
      fun _ _ => .done trivial
  · exact Tells.bind (commit_abides var) fun later _ => reference_abides (later.values.isPlain plain)

theorem useTemporary_abides (var : VarId) (live : Bool) : Abides words (useTemporary var live) before := by
  refine .reads ?_
  split
  · split
    · exact duplicate_abides _
    · exact (useUp_abides var).bind fun _ _ => .done trivial
  · exact unknownOperand_abides

theorem takeEntry_abides (entry : StackEntry) (width : Nat) :
    Abides words (takeEntry entry width) before := by
  refine (onStack_abides _).bind fun _ middle => .reads (.worded fun worded => ?_)
  dsimp only
  split
  · exact .ite (fun _ => duplicate_abides _) fun _ => .done trivial
  · exact .ite (fun _ => useTemporary_abides _ _) fun named =>
      useNamed_abides (worded.tree.vars.isPlain named)

theorem takeSlot_abides : Abides words takeSlot before := by
  refine .reads ?_
  split
  · exact takeEntry_abides _ _
  · exact unknownOperand_abides

/-- What is grouped stands for no value. -/
theorem groupLoose_tells (entries : List StackEntry) : Tells words (groupLoose entries) before
    fun found after => ∀ aggregate, found = some aggregate → after.tree.vars.IsPlain aggregate := by
  refine .reads ?_
  split
  · exact .ite (fun _ => .fail _) fun _ => group_tells _
  · exact .done fun _ none_found => by cases none_found

theorem takeComposite_abides (entries : List StackEntry) : Abides words (takeComposite entries) before := by
  refine .reads (.worded fun worded => ?_)
  dsimp only
  split
  · rename_i aggregate whole
    exact (onStack_tells _).bind fun later _ =>
      useNamed_abides (later.values.isPlain (isPlain_of_wholeAggregate? worded whole))
  · refine .ite (fun _ => ?_) fun _ => ?_
    · exact takeSlot_abides.bind fun _ _ => takeSlot_abides.bind fun _ _ => takeSlot_abides.bind fun _ _ =>
        addPlain_abides rfl
    · refine (groupLoose_tells entries).bind fun _ plain => ?_
      split
      · exact (onStack_tells _).bind fun later _ => useNamed_abides (later.values.isPlain (plain _ rfl))
      · exact .fail _

theorem takeValue_abides (width : Nat) : Abides words (takeValue width) before := by
  refine .reads ?_
  split
  · split
    · exact takeEntry_abides _ _
    · exact takeComposite_abides _
  · exact unknownOperand_abides

theorem peekExpression_abides (entry : StackEntry) : Abides words (peekExpression entry) before := by
  refine .reads (.worded fun worded => ?_)
  split
  · exact duplicate_abides _
  · refine .ite (fun _ => useTemporary_abides _ _) fun named => ?_
    have plain := worded.tree.vars.isPlain named
    exact Tells.bind (commit_abides _) fun later _ => reference_abides (later.values.isPlain plain)

theorem consume_abides (entry : StackEntry) : Abides words (consume entry) before := by
  cases entry with
  | literal node => exact .done trivial
  | var var =>
      refine onVar_abides fun found _ => ?_
      split
      · exact ⟨rfl, rfl, .rfl, fun named => named⟩
      · exact ⟨rfl, rfl, .rfl, fun named => named⟩

/-- What entries name stands for no value. -/
theorem namedValue_tells (entries : List StackEntry) : Tells words (namedValue entries) before
    fun found after => ∀ var, found = some var → after.tree.vars.IsPlain var := by
  refine .reads (.worded fun worded => ?_)
  split
  · exact .done fun _ none_found => by cases none_found
  · rename_i entry
    refine .done fun var found => ?_
    split at found
    · rename_i named
      cases entry with
      | literal node => cases found
      | var id =>
          cases found
          exact isPlain_of_isNamed worded named
    · cases found
  · split
    · rename_i aggregate whole
      refine .done fun var found => ?_
      cases found
      exact isPlain_of_wholeAggregate? worded whole
    · exact groupLoose_tells _

end Values

section Copies

/-- A variable gets its declaration. -/
theorem declared_abides (var : VarId) (declaration : NodeId) : Abides words
    (onVar var fun entry => { entry with declaration := some declaration }) before :=
  onVar_abides fun _ _ => ⟨rfl, rfl, .rfl, fun named => named⟩

theorem declare_abides (var : VarId) : Abides words (declare var) before :=
  (addPlain_abides rfl).bind fun _ _ => (declared_abides var _).bind fun _ _ => emit_abides _

/-- A variable is declared, which stands for no value. -/
theorem addSlot_abides (kind : VarKind) (type : Ty) : Abides words (addVar { kind, type }) before :=
  (addVar_abides rfl (fun _ => rfl) rfl).abides

theorem reserveVector_abides (kind : VarKind) : Abides words (reserveVector kind) before := by
  refine (addSlot_abides _ _).bind fun _ _ => (addSlot_abides _ _).bind fun _ _ =>
    (addSlot_abides _ _).bind fun _ _ => (group_tells _).abides.bind fun vector _ =>
      (onStack_abides _).bind fun _ _ => ?_
  split
  · exact declare_abides _
  · exact .done trivial

theorem reserve_abides (code : TypeCode) : Abides words (reserve code) before := by
  refine .reads ?_
  dsimp only
  refine .ite (fun _ => reserveVector_abides _) fun _ => ?_
  exact (addSlot_abides _ _).bind fun _ _ => (push_abides _).bind fun _ _ => declare_abides _

theorem constant_abides {instruction : Instruction}
    (allowed : ∀ value, instruction.operand = .literal value → words.allows (.literal value)) :
    Abides words (constant instruction) before := by
  unfold constant
  split
  · rename_i value pushed
    exact (addNode_abides (allowed value pushed) fun _ same => by cases same).bind fun _ _ => push_abides _
  · exact .reads (.fail _)

theorem pushUnknown_abides (count : Nat) : Abides words (pushUnknown count) before := by
  induction count generalizing before with
  | zero => exact .done trivial
  | succ count induction =>
      exact unknownOperand_abides.bind fun _ _ => (push_abides _).bind fun _ _ => induction

/-- What a variable is copied into stands for its value. -/
theorem pushUse_tells {var : VarId} (plain : before.tree.vars.IsPlain var) (width : Nat) :
    Tells words (pushUse var width) before fun temporary after =>
      after.tree.vars.IsValued temporary :=
  Tells.bind (commit_abides var) fun later _ =>
    .reads ((reference_abides (later.values.isPlain plain)).bind fun _ _ => pushValue_tells _ _ _)

theorem pushEach_abides (entries : List StackEntry) : Abides words (pushEach entries) before := by
  induction entries generalizing before with
  | nil => exact .done trivial
  | cons entry entries induction =>
      cases entry with
      | literal node => exact (push_abides _).bind fun _ _ => induction
      | var var =>
          refine .reads (.worded fun worded => ?_)
          dsimp only
          split
          · rename_i named
            exact (pushUse_tells (isPlain_of_isNamed worded named) 1).abides.bind fun _ _ => induction
          · exact (push_abides _).bind fun _ _ => induction

theorem pushCopies_abides (entries : List StackEntry) : Abides words (pushCopies entries) before := by
  refine (namedValue_tells entries).bind fun _ plain => ?_
  split
  · refine (pushUse_tells (plain _ rfl) _).bind fun _ valued => ?_
    refine .changes (fun worded => ⟨worded.tree, worded.comparison, worded.dispatch, ?_⟩) (.refl _) trivial
    rintro _ _ ⟨⟩
    exact valued
  · exact pushEach_abides _

theorem stepBefore_abides (statement : NodeId) (target : VarId) :
    Abides words (stepBefore statement target) before := by
  refine .reads ?_
  split
  · rename_i expression _
    refine (onTree_abides (.of_reshapes
      ((Reshapes.of_rearranges (.detach _ _)).trans (.modify ?_)))).bind fun _ _ => .reads ((pushValue_tells _ _ _).abides.bind fun _ _ => .done trivial)
    cases ((before.tree.detach statement).1.node expression) <;> rfl
  · exact .done trivial

theorem copyEntries_abides (command : Nat) (track : Option StepTrack) (entries : List StackEntry) :
    Abides words (copyEntries input command track entries) before := by
  refine .lift fun stepped _ => ?_
  split
  · exact stepBefore_abides _ _
  · split
    · exact .reads (.fail _)
    · refine .reads ?_
      exact .ite (fun _ => onStack_abides _) fun _ => pushCopies_abides _

theorem copyOperand_abides (instruction : Instruction) : Abides words (copyOperand instruction) before := by
  unfold copyOperand
  split
  · exact .done trivial
  · exact .reads (.fail _)

theorem copyTop_abides (command : Nat) (track : Option StepTrack)
    (find : Recovery → Int → Nat → Option (List StackEntry)) :
    Abides words (copyTop input command track find) before := by
  refine (copyOperand_abides _).bind fun operand _ => .reads ?_
  split
  · exact copyEntries_abides _ _ _
  · exact pushUnknown_abides _

theorem holdReturn_abides (width : Nat) : Abides words (holdReturn width) before := by
  refine (takeValue_abides width).bind fun value _ => Abides.bind ?_ fun _ _ => ?_
  · exact .notes rfl rfl rfl fun _ _ tracked => tracked
  · exact unknownOperand_abides.bind fun _ _ => .reads ((pushValue_tells _ _ _).abides.bind fun _ _ =>
      useUp_abides _)

theorem assign_abides (targets : List StackEntry) : Abides words (assign targets) before := by
  refine .reads (.ite (fun _ => holdReturn_abides _) fun _ => ?_)
  refine (namedValue_tells targets).bind fun _ plain => ?_
  split
  · exact .fail _
  · refine Tells.bind (commit_abides _) fun committed _ =>
      Tells.bind (takeValue_abides _) fun taken _ => ?_
    have kept := taken.values.isPlain (committed.values.isPlain (plain _ rfl))
    refine (reference_abides kept).bind fun _ _ => ?_
    exact (addPlain_abides rfl).bind fun _ _ => .reads ((pushValue_tells _ _ _).abides.bind fun _ _ =>
      .done trivial)

theorem copyDown_abides (instruction : Instruction)
    (find : Recovery → Int → Nat → Option (List StackEntry)) :
    Abides words (copyDown instruction find) before := by
  refine (copyOperand_abides _).bind fun operand _ => .reads ?_
  split
  · exact assign_abides _
  · exact .done trivial

theorem dropTemporary_abides (var : VarId) : Abides words (dropTemporary var) before := by
  refine .reads ?_
  split
  · exact .ite (fun _ => emitNode_abides rfl) fun _ => .done trivial
  · exact .done trivial

theorem dropLocal_abides (var : VarId) : Abides words (dropLocal var) before := by
  refine .reads ?_
  dsimp only
  split
  · refine .ite (fun _ => ?_) fun _ => .done trivial
    exact (discard_abides _).bind fun _ _ => (addPlain_abides rfl).bind fun _ _ =>
      (onTree_abides (.of_rearranges (.replace _ _ _))).bind fun _ _ => .done trivial
  · exact .done trivial

theorem dropSlots_abides (found : List VarId) (count : Nat) :
    Abides words (dropSlots found count) before := by
  induction count generalizing before found with
  | zero => exact .done trivial
  | succ count induction =>
      refine .reads ?_
      split
      · exact .done trivial
      · refine (onStack_abides _).bind fun _ _ => ?_
        split
        · exact induction _
        · refine .ite (fun _ => induction _) fun _ => .reads ?_
          split
          · exact (dropTemporary_abides _).bind fun _ _ => induction _
          · refine (dropLocal_abides _).bind fun dropped _ => ?_
            split
            · exact induction _
            · exact induction _
          · exact induction _

theorem wrapLocals_abides (command : Nat) (locals : List VarId) :
    Abides words (wrapLocals input command locals) before := by
  refine .reads (.lift fun continues _ => .ite (fun _ => ?_) fun _ => .done trivial)
  dsimp only
  split
  · exact .done trivial
  · refine (addPlain_abides rfl).bind fun block middle => onTree_abides ?_
    exact (Retells.of_rearranges (.move _ _ _)).trans (.of_rearranges (.insert _ _ _ _))

theorem popSlots_abides (command : Nat) : Abides words (popSlots input command) before := by
  unfold popSlots
  split
  · exact .reads (.fail _)
  · exact (dropSlots_abides _ _).bind fun locals _ =>
      .ite (fun _ => wrapLocals_abides _ _) fun _ => .done trivial

end Copies

section Operations

/-- The step of a variable becomes the value of what the variable was copied into. -/
theorem stepVariable_abides (op : StepOp) (target : Option StackEntry) {track : Option StepTrack}
    (tracked : ∀ temporary source, track = some (.copied temporary source) →
      before.tree.vars.IsValued temporary) : Abides words (stepVariable op target track) before := by
  refine .reads (.worded fun worded => ?_)
  split
  · exact .fail _
  · rename_i var stepped
    have plain : before.tree.vars.IsPlain var := by
      obtain ⟨entry, kept, here⟩ := Option.bind_eq_some_iff.mp stepped
      obtain ⟨_, named⟩ := Option.filter_eq_some_iff.mp kept
      cases entry with
      | literal node => cases here
      | var id =>
          cases here
          exact isPlain_of_isNamed worded named
    refine Tells.bind (commit_abides var) fun committed _ => ?_
    refine Tells.bind (reference_abides (committed.values.isPlain plain)) fun referred _ => ?_
    refine Tells.bind (addPlain_abides rfl) fun added _ => ?_
    split
    · rename_i temporary copied
      obtain ⟨step, here, same⟩ := Option.bind_eq_some_iff.mp copied
      have valued : before.tree.vars.IsValued temporary := by
        cases step with
        | stepped => cases same
        | copied other source =>
            dsimp only [copyOf?] at same
            split at same
            · cases same
              exact tracked temporary source here
            · cases same
      obtain ⟨entry, found, some_value⟩ :=
        ((committed.trans referred).trans added).values.isValued valued
      refine onVar_abides fun other known => ?_
      cases found.symm.trans known
      exact ⟨rfl, rfl, iff_of_false (Option.some_ne_none _) some_value, fun named => named⟩
    · refine (addPlain_abides rfl).bind fun _ _ => (emit_abides _).bind fun _ _ => ?_
      exact .notes rfl rfl rfl fun _ _ same => by cases same

theorem destruct_abides (instruction : Instruction) : Abides words (destruct instruction) before := by
  refine .reads ?_
  split
  · dsimp only
    split
    · exact .fail _
    · refine (takeValue_abides _).bind fun _ _ => ?_
      refine (addNode_abides (words.member _ _) fun _ same => by cases same).bind fun _ _ => ?_
      exact (pushValue_tells _ _ _).abides.bind fun _ _ => .done trivial
  · exact .fail _

theorem label_binaryNode? {opcode : Opcode} {left right : NodeId} {node : Node}
    (formed : binaryNode? opcode left right = some node) : node.label = .leave := by
  unfold binaryNode? at formed
  split at formed
  · cases formed
    rfl
  · obtain ⟨op, _, rfl⟩ := Option.map_eq_some_iff.mp formed
    rfl

/-- The literal of a comparison is one of the tree. -/
theorem allows_comparison? (worded : before.IsWorded words) {subject : Option StackEntry}
    {right : NodeId} {result : VarId} {comparison : Comparison}
    (compared : comparison? before.tree subject right result = some comparison) :
    words.allows (.literal comparison.label) := by
  unfold comparison? at compared
  split at compared
  · rename_i label entry here
    cases compared
    have allowed := worded.tree.label right
    rwa [here] at allowed
  · cases compared

theorem binary_abides (instruction : Instruction) : Abides words (binary instruction) before := by
  refine .reads ?_
  split
  · exact .fail _
  · dsimp only
    refine (takeValue_abides _).bind fun _ _ => (takeValue_abides _).bind fun _ _ => ?_
    split
    · exact .fail _
    · rename_i formed
      refine (addPlain_abides (label_binaryNode? formed)).bind fun _ _ => ?_
      refine (pushValue_tells _ _ _).abides.bind fun _ after => ?_
      refine .changes (fun worded => ⟨worded.tree, ?_, worded.dispatch, worded.track⟩) (.refl _) trivial
      intro comparison compared
      dsimp only at compared
      split at compared
      · exact allows_comparison? worded compared
      · cases compared

theorem unary_abides (instruction : Instruction) : Abides words (unary instruction) before := by
  unfold unary
  split
  · exact .reads (.fail _)
  · exact (takeValue_abides _).bind fun _ _ => (addPlain_abides rfl).bind fun _ _ =>
      (pushValue_tells _ _ _).abides.bind fun _ _ => .done trivial

theorem actionArgument_abides (type : Ty) : Abides words (actionArgument type) before := by
  unfold actionArgument
  refine .ite (fun _ => .reads ?_) fun _ => takeValue_abides _
  split
  · refine Abides.bind ?_ fun _ _ => .done trivial
    exact .notes rfl rfl rfl fun _ _ tracked => tracked
  · exact unknownOperand_abides

theorem action_abides {catalog : ActionCatalog} {instruction : Instruction}
    (allowed : ∀ id argumentCount, instruction.actionOperand? = some (id, argumentCount) →
      words.allows (.action id (actionName catalog id)
        (List.replicate (actionParams catalog id argumentCount).length 0))) :
    Abides words (action catalog instruction) before := by
  unfold action
  split
  · exact .reads (.fail _)
  · rename_i id argumentCount operand
    refine (Abides.mapM (fun type _ => actionArgument_abides type) _ _).bind fun {arguments _} _ same => ?_
    have named : words.allows (Node.action id (actionName catalog id) arguments).label := by
      rw [Node.label, same]
      exact allowed id argumentCount operand
    refine (addNode_abides named fun _ same => by cases same).bind fun _ _ => ?_
    dsimp only
    refine .ite (fun _ => emitNode_abides rfl) fun _ => ?_
    exact (pushValue_tells _ _ _).abides.bind fun _ _ => .done trivial

theorem callArgument_abides (index width : Nat) : Abides words (callArgument index width) before := by
  refine .reads (.ite (fun _ => ?_) fun _ => takeValue_abides _)
  exact addNode_abides (words.unresolvedParam index) fun _ same => by cases same

theorem callArguments_abides (index : Nat) (widths : List Nat) :
    Abides words (callArguments index widths) before := by
  induction widths generalizing before index with
  | nil => exact .done trivial
  | cons width widths induction =>
      exact (callArgument_abides _ _).bind fun _ _ => (induction _).bind fun _ _ => .done trivial

theorem declareTogether_abides (members : List VarId) (aggregate : VarId) :
    Abides words (declareTogether members aggregate) before :=
  (addPlain_abides rfl).bind fun _ _ => onTree_abides
    (.of_reshapes ((Reshapes.replaceAll _ _ _).trans (.declareWhole _ _ _)))

theorem resultTarget_abides (slots : List VarId) : Abides words (resultTarget slots) before := by
  unfold resultTarget
  split
  · exact .done trivial
  · refine (group_tells _).abides.bind fun found _ => ?_
    split
    · exact (declareTogether_abides _ _).bind fun _ _ => .done trivial
    · exact .done trivial

theorem attachResult_abides (call width : Nat) : Abides words (attachResult call width) before := by
  refine .reads ?_
  split
  · exact emitNode_abides rfl
  · refine (resultTarget_abides _).bind fun target middle => ?_
    split
    · exact emitNode_abides rfl
    · refine .reads ?_
      split
      · exact .done trivial
      · rename_i declaration _
        refine onTree_abides (.of_reshapes (Reshapes.setParent (.modify ?_) _ _))
        cases middle.tree.node declaration <;> rfl

theorem call_abides (command : Nat)
    (allowed : ∀ callee, words.allows (.call callee (input.name callee) [])) :
    Abides words (call input command) before := by
  unfold call
  split
  · exact unclassified_tells _
  · dsimp only
    refine (callArguments_abides _ _).bind fun _ _ => ?_
    refine (addNode_abides (allowed _) fun _ same => by cases same).bind fun _ _ => ?_
    split
    · exact emitNode_abides rfl
    · exact attachResult_abides _ _

end Operations

section Control

theorem openElse_abides (start limit : Nat) : Abides words (openElse start limit) before :=
  .reads (.ite (fun _ => .fail _) fun _ => (openNode_abides rfl).bind fun _ _ => .done trivial)

theorem finishClosure_abides (scope : Scope) : Abides words (finishClosure scope) before :=
  (onStack_abides _).bind fun _ _ => .notes rfl rfl rfl fun _ _ tracked => tracked

theorem closeScope_abides (scope : Scope) (outer : List Scope) (limit : Nat) :
    Abides words (closeScope scope outer limit) before := by
  refine Abides.bind (.notes rfl rfl rfl fun _ _ tracked => tracked) fun _ _ => .reads ?_
  dsimp only
  split
  · exact openElse_abides _ _
  · exact .ite (fun _ => .fail _) fun _ => .ite (fun _ => finishClosure_abides _) fun _ => .done trivial

theorem closeScopesFrom_abides (position count : Nat) :
    Abides words (closeScopesFrom position count) before := by
  induction count generalizing before with
  | zero => exact .done trivial
  | succ count induction =>
      refine .reads ?_
      split
      · exact .done trivial
      · exact .ite (fun _ => (closeScope_abides _ _ _).bind fun _ _ => induction) fun _ => .done trivial

theorem closeScopes_abides (position : Nat) : Abides words (closeScopes position) before := by
  refine .reads ((closeScopesFrom_abides _ _).bind fun _ _ => .reads ?_)
  split
  · exact enter_abides _
  · exact .done trivial

theorem openOuterLoop_abides (latch : Nat) : Abides words (openOuterLoop input latch) before := by
  refine .reads (.ite (fun _ => unclassified_tells _) fun _ => .lift fun _ _ =>
    .ite (fun _ => ?_) fun _ => ?_)
  · exact (openNode_abides rfl).bind fun _ _ => .done trivial
  · exact (openNode_abides rfl).bind fun _ _ => .notes rfl rfl rfl fun _ _ tracked => tracked

theorem openInnerLoops_abides (latches : List Nat) : Abides words (openInnerLoops input latches) before := by
  induction latches generalizing before with
  | nil => exact .done trivial
  | cons latch latches induction =>
      refine .lift fun _ _ => ?_
      split
      · exact .reads ((openNode_abides rfl).bind fun _ _ => induction)
      · exact induction

theorem openLoops_abides (command : Nat) : Abides words (openLoops input command) before := by
  refine .lift fun _ _ => .reads (.lift fun _ _ => ?_)
  split
  · exact .done trivial
  · exact (openOuterLoop_abides _).bind fun _ _ => openInnerLoops_abides _

theorem targetOf_abides (command : Nat) (missing : Obstacle) :
    Abides words (targetOf input command missing) before := by
  refine .lift fun found _ => ?_
  split
  · exact .done trivial
  · exact unclassified_tells _

theorem setCondition_abides (loop condition : NodeId) :
    Abides words (setCondition loop condition) before := by
  refine onTree_abides (.of_reshapes (Reshapes.setParent (.modify ?_) _ _))
  cases before.tree.node loop with
  | _ => rfl

theorem openBranch_abides (start target : Nat) : Abides words (openBranch start target) before := by
  refine .reads (.ite (fun _ => unclassified_tells _) fun _ =>
    .ite (fun _ => unclassified_tells _) fun _ => ?_)
  exact takeSlot_abides.bind fun _ _ => (openNode_abides rfl).bind fun _ _ => .done trivial

theorem jumpZero_abides (start target : Nat) : Abides words (jumpZero start target) before := by
  refine .reads ?_
  split
  · exact takeSlot_abides.bind fun _ _ => (setCondition_abides _ _).bind fun _ _ =>
      .notes rfl rfl rfl fun _ _ tracked => tracked
  · split
    · exact takeSlot_abides.bind fun _ _ => setCondition_abides _ _
    · exact openBranch_abides _ _

theorem addLabels_abides {cases : List (Constant × Nat)}
    (allowed : ∀ entry ∈ cases, words.allows (.literal entry.1)) :
    Abides words (addLabels cases) before := by
  induction cases generalizing before with
  | nil => exact .done trivial
  | cons entry cases induction =>
      obtain ⟨first, rest⟩ := List.forall_mem_cons.mp allowed
      exact (addNode_abides first fun _ same => by cases same).bind fun _ _ =>
        (induction rest).bind fun _ _ => .done trivial

theorem addCases_abides (switch : NodeId) (ranges : List (CaseRange NodeId)) :
    Abides words (addCases switch ranges) before := by
  induction ranges generalizing before with
  | nil => exact .done trivial
  | cons range ranges induction =>
      refine (addPlain_abides rfl).bind fun _ _ => Abides.bind (onTree_abides ?_) fun _ _ => induction
      exact .of_rearranges (.append _ _ _)

theorem openSwitch_abides (command : Nat) {dispatch : Dispatch} (default : Nat)
    (allowed : ∀ entry ∈ dispatch.cases, words.allows (.literal entry.1)) :
    Abides words (openSwitch input command dispatch default) before := by
  refine .lift fun found _ => ?_
  split
  · exact unclassified_tells _
  · exact (peekExpression_abides _).bind fun _ _ => (consume_abides _).bind fun _ _ =>
      (addPlain_abides rfl).bind fun _ _ => (addLabels_abides allowed).bind fun _ _ =>
        (addCases_abides _ _).bind fun _ _ => (emit_abides _).bind fun _ _ => enter_abides _

theorem addDispatch_abides {comparison : Comparison} (target : Nat)
    (allowed : words.allows (.literal comparison.label)) :
    Abides words (addDispatch comparison target) before := by
  refine .reads (.worded fun sound => ?_)
  split
  · refine .changes (fun worded => ⟨worded.tree, worded.comparison, ?_, worded.track⟩) (.refl _) trivial
    rintro _ ⟨⟩
    simpa using allowed
  · rename_i dispatch known
    refine .ite (fun _ => ?_) fun _ => unclassified_tells _
    refine .changes (fun worded => ⟨worded.tree, worded.comparison, ?_, worded.track⟩) (.refl _) trivial
    rintro _ ⟨⟩ entry listed
    rcases List.mem_append.mp listed with former | new
    · exact sound.dispatch dispatch known entry former
    · rwa [List.mem_singleton.mp new]

theorem dispatchCase_abides (target : Nat) : Abides words (dispatchCase target) before := by
  refine .reads (.worded fun sound => ?_)
  split
  · exact unclassified_tells _
  · rename_i comparison known
    refine .ite (fun _ => ?_) fun _ => unclassified_tells _
    refine Abides.bind ?_ fun _ _ => (onStack_abides _).bind fun _ _ => (consume_abides _).bind fun _ _ =>
      addDispatch_abides target (sound.comparison comparison known)
    refine .changes (fun worded => ⟨worded.tree, ?_, worded.dispatch, worded.track⟩) (.refl _) trivial
    rintro _ ⟨⟩

theorem conditional_abides (command : Nat) : Abides words (conditional input command) before :=
  (targetOf_abides _ _).bind fun _ _ => .ite (fun _ => dispatchCase_abides _) fun _ => jumpZero_abides _ _

/-- A mark of a jump that no statement expresses is emitted. -/
theorem markJump_abides : Abides words (emitNode (.comment unresolvedJump)) before :=
  (addNode_abides words.unresolvedJump fun _ same => by cases same).bind fun _ _ => emit_abides _

theorem backwardJump_abides (target behind : Nat) : Abides words (backwardJump target behind) before := by
  refine .reads ?_
  split
  · exact unclassified_tells _
  · exact .ite (fun _ => .done trivial) fun _ => .ite (fun _ => emitNode_abides rfl) fun _ =>
      .ite (fun _ => markJump_abides) fun _ => unclassified_tells _

theorem returnPending_abides : Abides words returnPending before :=
  .reads (Abides.bind (.notes rfl rfl rfl fun _ _ tracked => tracked) fun _ _ => emitNode_abides rfl)

theorem otherForwardJump_abides (target : Nat) (returns : Bool) :
    Abides words (otherForwardJump target returns) before :=
  .reads (.ite (fun _ => emitNode_abides rfl) fun _ => .ite (fun _ => emitNode_abides rfl) fun _ =>
    .ite (fun _ => markJump_abides) fun _ => unclassified_tells _)

theorem forwardJump_abides (target behind : Nat) (returns : Bool) :
    Abides words (forwardJump target behind returns) before := by
  refine .reads ?_
  dsimp only
  refine .ite (fun _ => emitNode_abides rfl) fun _ => .ite (fun _ => returnPending_abides) fun _ =>
    .ite (fun _ => emitNode_abides rfl) fun _ => .ite (fun _ => ?_) fun _ => otherForwardJump_abides _ _
  split
  · rename_i node skipped
    refine onTree_abides (.of_reshapes (.modify ?_))
    unfold withSkip? at skipped
    split at skipped
    · rename_i here
      cases skipped
      rw [here]
      rfl
    · cases skipped
  · exact otherForwardJump_abides _ _

theorem jump_abides (command : Nat) : Abides words (jump input command) before := by
  refine (targetOf_abides _ _).bind fun destination _ => .reads (.worded fun sound => ?_)
  refine .ite (fun _ => ?_) fun _ => ?_
  · exact (addPlain_abides rfl).bind fun _ _ => enter_abides _
  · split
    · rename_i dispatch known
      refine Abides.bind ?_ fun _ _ => openSwitch_abides _ _ (sound.dispatch dispatch known)
      refine .changes (fun worded => ⟨worded.tree, worded.comparison, ?_, worded.track⟩) (.refl _) trivial
      rintro _ ⟨⟩
    · exact .ite (fun _ => backwardJump_abides _ _) fun _ =>
        .ite (fun _ => forwardJump_abides _ _ _) fun _ => .done trivial

theorem leaveSubroutine_abides (command : Nat) : Abides words (leaveSubroutine input command) before := by
  have ends : ∀ before, Abides words (modify fun recovery => { recovery with finished := true }) before :=
    fun _ => .notes rfl rfl rfl fun _ _ tracked => tracked
  refine .reads (.ite (fun _ => .lift fun next _ => ?_) fun _ => .done trivial)
  split
  · exact returnPending_abides
  · exact .ite (fun _ => returnPending_abides.bind fun _ => ends) fun _ => ends _

theorem finishGlobals_abides : Abides words finishGlobals before := by
  refine .changes (fun worded => ?_) ?_ trivial
  · split
    · exact ⟨worded.tree, worded.comparison, worded.dispatch, worded.track⟩
    · exact worded
  · split <;> exact .refl _

end Control

end Recover

/-- A vocabulary allows what the live ones of some instructions say: the literals that they push, the
actions that they call, and the names of subroutines. -/
structure RecoveryInput.Speaks (input : RecoveryInput) (commands : List Nat) (words : Vocabulary) :
    Prop where
  /-- Literals are allowed. -/
  literal : ∀ command ∈ commands, input.table.isDead command = .ok false → ∀ value,
    (input.program.instruction command).operand = .literal value → words.allows (.literal value)
  /-- Calls of actions are allowed. -/
  action : ∀ command ∈ commands, input.table.isDead command = .ok false →
    input.program.opcode command = .action → ∀ id argumentCount,
      (input.program.instruction command).actionOperand? = some (id, argumentCount) →
        words.allows (.action id (Recover.actionName input.catalog id)
          (List.replicate (Recover.actionParams input.catalog id argumentCount).length 0))
  /-- Calls of subroutines are allowed. -/
  call : ∀ callee, words.allows (.call callee (input.name callee) [])

namespace Recover

variable {words : Vocabulary} {before : Recovery} {input : RecoveryInput} {commands : List Nat}

section Runs

theorem execute_abides (speaks : input.Speaks commands words) {command : Nat} (listed : command ∈ commands)
    (alive : input.table.isDead command = .ok false) {track : Option StepTrack}
    (tracked : ∀ temporary source, track = some (.copied temporary source) →
      before.tree.vars.IsValued temporary) : Abides words (execute input command track) before := by
  unfold execute
  dsimp only
  split
  · exact reserve_abides _
  · exact constant_abides (speaks.literal command listed alive)
  · exact copyTop_abides _ _ _
  · exact copyDown_abides _ _
  · exact copyTop_abides _ _ _
  · exact copyDown_abides _ _
  · exact popSlots_abides _
  · exact .reads (stepVariable_abides _ _ tracked)
  · exact .reads (stepVariable_abides _ _ tracked)
  · exact .reads (stepVariable_abides _ _ tracked)
  · exact .reads (stepVariable_abides _ _ tracked)
  · exact destruct_abides _
  · rename_i calls
    exact action_abides (speaks.action command listed alive calls)
  · exact call_abides _ speaks.call
  · exact jump_abides _
  · exact .lift fun _ _ => .ite (fun _ => onStack_abides _) fun _ => conditional_abides _
  · exact .lift fun _ _ => .ite (fun _ => onStack_abides _) fun _ => conditional_abides _
  · exact leaveSubroutine_abides _
  · exact finishGlobals_abides
  · exact .ite (fun _ => binary_abides _) fun _ => .ite (fun _ => unary_abides _) fun _ => .done trivial

theorem visit_abides (speaks : input.Speaks commands words) {command : Nat} (listed : command ∈ commands)
    (alive : input.table.isDead command = .ok false) : Abides words (visit input command) before := by
  unfold visit
  refine Abides.bind (.notes rfl rfl rfl fun _ _ tracked => tracked) fun _ _ =>
    (closeScopes_abides _).bind fun _ _ => (openLoops_abides _).bind fun _ opened =>
      .reads (.worded fun worded => ?_)
  dsimp only
  refine Tells.bind (.notes rfl rfl rfl fun _ _ tracked => ?_) fun later _ => ?_
  · cases tracked
  · exact execute_abides speaks listed alive fun temporary source tracked =>
      later.values.isValued (worded.track temporary source tracked)

/-- Visiting some instructions keeps to a vocabulary that allows what these say. -/
theorem visitAll_abides (speaks : input.Speaks commands words) {visited : List Nat}
    (listed : visited ⊆ commands) : Abides words (visitAll input visited) before := by
  induction visited generalizing before with
  | nil => exact .done trivial
  | cons command visited induction =>
      obtain ⟨here, rest⟩ := List.cons_subset.mp listed
      refine .reads (.ite (fun _ => .lift fun dead known => ?_) fun _ => .done trivial)
      refine .ite (fun alive => ?_) fun _ => induction rest
      cases dead with
      | true => cases alive
      | false => exact (visit_abides speaks here known).bind fun _ _ => induction rest

theorem complete_abides : Abides words complete before :=
  (closeScopes_abides _).bind fun _ _ => .reads (.ite (fun _ => returnPending_abides) fun _ => .done trivial)

end Runs

end Recover

namespace Frame

open VarTable

theorem persists_addVars (kind : VarKind) (vars : VarTable) (types : List Ty) :
    vars.Persists (addVars kind vars types).1 := by
  induction types generalizing vars with
  | nil => exact .refl vars
  | cons type types induction => exact (Persists.add rfl (fun _ => rfl) rfl).trans (induction _)

theorem persists_ofResult (type : Ty) (vars : VarTable) : vars.Persists (ofResult type vars).1 := by
  unfold ofResult
  dsimp only
  split
  · exact (persists_addVars _ _ _).trans (.aggregate _ _)
  · exact persists_addVars _ _ _

theorem persists_ofParam (type : Ty) (width : Nat) (vars : VarTable) :
    vars.Persists (ofParam type width vars).1 := by
  unfold ofParam
  dsimp only
  split
  · exact (persists_addVars _ _ _).trans (.aggregate _ _)
  · exact .add rfl (fun _ => rfl) rfl

theorem persists_ofParams (vars : VarTable) (params : List (Ty × Nat)) :
    vars.Persists (ofParams vars params).1 := by
  induction params generalizing vars with
  | nil => exact .refl vars
  | cons param params induction => exact (persists_ofParam _ _ vars).trans (induction _)

theorem persists_ofProto (proto : Prototype) (vars : VarTable) :
    vars.Persists (ofProto proto vars).vars :=
  (persists_ofResult _ vars).trans (persists_ofParams _ _)

end Frame

namespace RecoveryInput

variable {input : RecoveryInput} {sub : Nat}

theorem emptyTree_isWorded (words : Vocabulary) (input : RecoveryInput) (sub : Nat) :
    (input.emptyTree sub).IsWorded words := by
  have empty : ∀ {id : VarId} {entry : Variable}, (input.emptyTree sub).vars.get? id ≠ some entry :=
    fun found => absurd (VarTable.lt_of_get? found) (Nat.not_lt_zero _)
  refine ⟨fun id => ?_, fun {id var} here => ?_,
    ⟨fun found => absurd found empty, fun found => absurd found empty, fun found => absurd found empty⟩⟩
  all_goals cases id with
  | zero => first | exact words.plain | cases here
  | succ id =>
      have outside : (input.emptyTree sub).size ≤ id + 1 := Nat.succ_le_succ (Nat.zero_le id)
      first
        | rw [ScriptTree.node_of_le outside]; exact words.unknownOperand
        | rw [ScriptTree.node_of_le outside] at here; cases here

/-- A recovery begins without having said anything. -/
theorem start_isWorded (words : Vocabulary) (input : RecoveryInput) (sub : Nat) :
    (input.start sub).IsWorded words := by
  have empty := input.emptyTree_isWorded words sub
  have fresh : ∀ {tree : ScriptTree}, tree.IsWorded words → ∀ stack globals position,
      Recovery.IsWorded words { tree, stack, globals, position } := fun worded _ _ _ =>
    ⟨worded, fun _ held => (by cases held), fun _ held => (by cases held), fun _ _ held => (by cases held)⟩
  unfold start
  dsimp only
  split
  · exact fresh empty _ _ _
  · have globals := (ScriptTree.Retells.persists
      (Frame.persists_addVars .global (input.emptyTree sub).vars input.globals)).worded empty
    split
    · exact fresh globals _ _ _
    · rename_i proto _
      have framed := (ScriptTree.Retells.persists (Frame.persists_ofProto proto _)).worded globals
      refine fresh ?_ _ _ _
      exact ⟨framed.label, framed.reference, framed.vars⟩

/-- A recovery keeps to a vocabulary that allows what the live instructions of the subroutine say, and
its tree keeps the header. -/
theorem run_isWorded {words : Vocabulary} (speaks : input.Speaks (input.program.body sub) words)
    {last : Recovery} (recovered : input.run sub = .ok last) :
    last.IsWorded words ∧ (input.start sub).tree.Continues last.tree := by
  have abides : Recover.Abides words
      (Recover.visitAll input (input.program.body sub) >>= fun _ => Recover.complete) (input.start sub) :=
    (Recover.visitAll_abides speaks (List.Subset.refl _)).bind fun _ _ => Recover.complete_abides
  unfold run at recovered
  dsimp only at recovered
  cases ran : (Recover.visitAll input (input.program.body sub) >>= fun _ => Recover.complete).run
      (input.start sub) with
  | error fault =>
      rw [ran] at recovered
      cases recovered
  | ok pair =>
      rw [ran] at recovered
      cases recovered
      obtain ⟨worded, continues, -⟩ := abides (input.start_isWorded words sub) ran
      exact ⟨worded, continues⟩

end RecoveryInput
end NwScript
