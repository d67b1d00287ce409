import NwScript.Proofs.StatementMoves
import NwScript.Recovery.Subroutine

/-!
# Moves of control flow

Scopes, switches, jumps and returns, as moves of a recovery.  The instructions of a subroutine play
the actions among them that have no result, in their order.
-/

namespace NwScript

/-- The action without a result that an instruction calls, if it calls one. -/
def RecoveryInput.command? (input : RecoveryInput) (command : Nat) : Option Nat :=
  if input.program.opcode command = .action then
    Recover.command? input.catalog (input.program.instruction command)
  else
    none

namespace Recover

open Recovery

variable {terms : Terms} {before : Recovery}

section Scopes

theorem openElse_goes (start limit : Nat) : Goes terms (openElse start limit) before := by
  refine .reads ?_
  split
  · exact .fail _
  · exact (openNode_goes _ rfl rfl rfl fun _ used => absurd used List.not_mem_nil).bind
      fun _ _ => .done trivial

theorem finishClosure_goes {scope : Scope} (closure : (before.tree.node scope.node).isClosure) :
    Goes terms (finishClosure scope) before := by
  refine .via (onStack_runs _ _) (.slots fun sound entry listed =>
    sound.stack entry (SlotStack.mem_of_mem_truncate listed)) ?_
  have value : before.tree.IsValue terms.catalog scope.node := by
    cases here : before.tree.node scope.node with
    | closure body =>
        refine ⟨ScriptTree.lt_of_body? ?_, ?_, ?_⟩ <;> rw [here] <;> rfl
    | _ =>
        rw [here] at closure
        cases closure
  exact .last (Runs.changes _ _) (.move .refl (.note rfl rfl rfl rfl fun all =>
    { all with closures := List.forall_mem_cons.mpr ⟨value, all.closures⟩ })) trivial

theorem closeScope_goes {scope : Scope} {outer : List Scope} (limit : Nat)
    (scopes : before.scopes = scope :: outer) :
    Goes terms (closeScope scope outer limit) before := by
  refine .via (Runs.changes _ _) (.move .refl (.leave scopes)) (.reads ?_)
  dsimp only
  split
  · exact openElse_goes _ _
  · split
    · exact .fail _
    · split
      · rename_i closure
        exact finishClosure_goes closure
      · exact .done trivial

theorem closeScopesFrom_goes (position count : Nat) :
    Goes terms (closeScopesFrom position count) before := by
  induction count generalizing before with
  | zero => exact .done trivial
  | succ count induction =>
      refine .reads ?_
      split
      · exact .done trivial
      · rename_i scope outer scopes
        dsimp only
        split
        · exact (closeScope_goes _ scopes).bind fun _ _ => induction
        · exact .done trivial

theorem enterCase_goes (position : Nat) : Goes terms (enterCase position) before := by
  refine .reads ?_
  split
  · rename_i node found
    unfold Recovery.caseAt? at found
    dsimp only at found
    split at found
    · refine .last (Runs.changes _ _) (.move .refl (.enter ?_ ?_)) trivial
      · exact List.mem_of_find?_eq_some found
      · have holds := List.find?_some found
        obtain ⟨body, here, _⟩ := (Option.any_eq_true _ _).mp holds
        show (before.tree.node node).body?.isSome
        rw [here]
        rfl
    · cases found
  · exact .done trivial

theorem closeScopes_goes (position : Nat) : Goes terms (closeScopes position) before :=
  .reads ((closeScopesFrom_goes _ _).bind fun _ _ => enterCase_goes _)

variable {input : RecoveryInput}

theorem openOuterLoop_goes (latch : Nat) : Goes terms (openOuterLoop input latch) before := by
  refine .reads ?_
  dsimp only
  split
  · exact unclassified_leads _
  · refine .lift fun tests _ => ?_
    split
    · exact (openNode_goes _ rfl rfl rfl fun _ used => absurd used List.not_mem_nil).bind
        fun _ _ => .done trivial
    · exact (openNode_goes _ rfl rfl rfl fun _ used => absurd used List.not_mem_nil).bind
        fun _ _ => .last (Runs.changes _ _)
          (.move .refl (.note rfl rfl rfl rfl fun all => { all with })) trivial

theorem openInnerLoops_goes (latches : List Nat) :
    Goes terms (openInnerLoops input latches) before := by
  induction latches generalizing before with
  | nil => exact .done trivial
  | cons latch latches induction =>
      refine .lift fun tests _ => ?_
      split
      · exact .reads ((openNode_goes _ rfl rfl rfl fun _ used => absurd used List.not_mem_nil).bind
          fun _ _ => induction)
      · exact induction

theorem openLoops_goes (command : Nat) : Goes terms (openLoops input command) before := by
  refine .lift fun origins _ => .reads (.lift fun found _ => ?_)
  split
  · exact .done trivial
  · exact (openOuterLoop_goes _).bind fun _ _ => openInnerLoops_goes _

end Scopes

section Switches

/-- A node waits to be attached, while the innermost open node is the same. -/
structure Waits (id : NodeId) (before after : Recovery) : Prop where
  /-- It stands nowhere. -/
  unplaced : after.tree.IsUnplaced id
  /-- It owns statements. -/
  owns : (after.tree.node id).body?.isSome
  /-- The same scopes are open. -/
  scopes : after.scopes = before.scopes

theorem waits_add (sound : before.IsSound terms.catalog) {node : Node} (owns : node.body?.isSome)
    (statement : node.isExpression = false) (empty : node.statements = []) :
    Waits before.tree.size { before with tree := (before.tree.add node).1 }
      { before with tree := (before.tree.add node).1 } :=
  ⟨isUnplaced_add node sound statement empty, by rwa [ScriptTree.node_add_self], rfl⟩

theorem Waits.add {id : NodeId} (waits : Waits id before before) (node : Node)
    (empty : node.statements = []) :
    Waits id before { before with tree := (before.tree.add node).1 } := by
  refine ⟨waits.unplaced.add empty, ?_, rfl⟩
  show ((before.tree.add node).1.node id).body?.isSome
  rw [ScriptTree.node_add_of_lt _ waits.unplaced.inside]
  exact waits.owns

theorem Waits.self {id : NodeId} {after : Recovery} (waits : Waits id before after) :
    Waits id after after :=
  { waits with scopes := rfl }

theorem Waits.trans {id : NodeId} {middle after : Recovery} (first : Waits id before middle)
    (second : Waits id middle after) : Waits id before after :=
  { second with scopes := second.scopes.trans first.scopes }

theorem addLabels_lead {id : NodeId} (waits : Waits id before before) (cases : List (Constant × Nat)) :
    Leads terms (addLabels cases) before fun labels after =>
      (∀ label ∈ labels, after.tree.IsValue terms.catalog label.1) ∧ Waits id before after := by
  induction cases generalizing before with
  | nil => exact .done ⟨fun _ listed => absurd listed List.not_mem_nil, waits⟩
  | cons entry cases induction =>
      have added := waits.add (.literal entry.1) rfl
      have value : (before.tree.add (.literal entry.1)).1.IsValue terms.catalog before.tree.size :=
        ScriptTree.isValue_add _ _ rfl rfl
      refine .via (addNode_runs _ _) (.edit (.add (fun _ used => absurd used List.not_mem_nil) rfl
        (.inl ⟨rfl, rfl⟩))) ((induction added.self).bind fun {labels _} plays waiting => ?_)
      exact .done ⟨List.forall_mem_cons.mpr ⟨plays.isValue value, waiting.1⟩,
        added.trans waiting.2⟩

/-- A case is attached to a switch that stands nowhere yet. -/
theorem addCase_lead {switch : NodeId} (waits : Waits switch before before) {node : Node}
    (statement : node.isExpression = false) (empty : node.statements = [])
    (values : ∀ operand ∈ node.operands, before.tree.IsValue terms.catalog operand) :
    Leads terms (addNode node >>= fun case => onTree fun tree => tree.append switch case) before
      fun _ after => Waits switch before after := by
  refine .sound fun sound => .via (addNode_runs _ _)
    (.edit (addStatement_edit _ statement empty values)) ?_
  have added := waits.add node empty
  have unplaced := isUnplaced_add node sound statement empty
  have different : switch ≠ before.tree.size := Nat.ne_of_lt waits.unplaced.inside
  have bare : (before.tree.add node).1.children before.tree.size = [] := by
    rw [ScriptTree.children_eq, ScriptTree.node_add_self, empty]
  have placed := ScriptTree.Rearranges.append (before.tree.add node).1 switch before.tree.size
  refine .last (onTree_runs _ _) (.edit (.hold unplaced bare added.owns added.unplaced different))
    ⟨⟨?_, ?_, added.unplaced.deep, fun holder held => ?_⟩, ?_, rfl⟩
  · exact added.unplaced.inside.trans_eq placed.size.symm
  · exact (Node.isExpression_congr (placed.outline switch)).trans added.unplaced.statement
  · rcases placed.child held with ⟨former, there⟩ | new
    · exact added.unplaced.free former there
    · exact different (List.mem_singleton.mp new)
  · exact (Node.owns_congr (placed.outline switch)).trans added.owns

theorem addCases_lead {switch : NodeId} {ranges : List (CaseRange NodeId)}
    (waits : Waits switch before before)
    (labels : ∀ range ∈ ranges, ∀ label ∈ range.label, before.tree.IsValue terms.catalog label) :
    Leads terms (addCases switch ranges) before fun _ after => Waits switch before after := by
  induction ranges generalizing before with
  | nil => exact .done waits
  | cons range ranges induction =>
      have values := labels range List.mem_cons_self
      rw [addCases, ← bind_assoc]
      refine (addCase_lead waits rfl rfl ?_).bind fun plays added => ?_
      · simpa [Node.operands] using values
      · refine (induction added.self fun other listed label there => ?_).mono added.trans
        exact plays.isValue (labels other (List.mem_cons_of_mem _ listed) label there)

/-- Cases get the labels that were added for them. -/
theorem mem_of_ofDispatch {labels : List (NodeId × Nat)} {default limit : Nat}
    {range : CaseRange NodeId} (listed : range ∈ CaseRange.ofDispatch labels default limit)
    {label : NodeId} (labelled : range.label = some label) : ∃ entry ∈ labels, entry.1 = label := by
  have image := List.mem_map_of_mem (f := fun range => (range.label, range.start)) listed
  rw [CaseRange.ofDispatch, CaseRange.map_divide, CaseRange.ordered, List.mem_mergeSort,
    labelled] at image
  split at image
  · rcases List.mem_append.mp image with there | new
    · obtain ⟨entry, known, same⟩ := List.mem_map.mp there
      exact ⟨entry, known, Option.some.inj (Prod.mk.inj same).1⟩
    · cases (Prod.mk.inj (List.mem_singleton.mp new)).1
  · obtain ⟨entry, known, same⟩ := List.mem_map.mp image
    exact ⟨entry, known, Option.some.inj (Prod.mk.inj same).1⟩

variable {input : RecoveryInput}

theorem openSwitch_goes {command : Nat} {dispatch : Dispatch} {default : Nat}
    (subject : before.tree.IsEntry terms.catalog dispatch.subject) :
    Goes terms (openSwitch input command dispatch default) before := by
  refine .lift fun found _ => ?_
  split
  · exact unclassified_leads _
  · dsimp only
    refine (peekExpression_yields fun _ => subject).bind fun {value _} _ known => ?_
    refine (consume_goes _).bind fun {_ middle} plays _ => .sound fun sound => ?_
    have evaluated := plays.isValue known
    refine .via (addNode_runs _ _) (.edit (addStatement_edit _ rfl rfl
      (by simpa [Node.operands] using evaluated))) ?_
    refine (addLabels_lead (waits_add sound rfl rfl rfl) dispatch.cases).bind fun {labels _} _ added => ?_
    refine (addCases_lead added.2.self fun range listed label labelled => ?_).bind
      fun _ placed => emitEnter_goes placed.unplaced ?_ placed.owns
    · obtain ⟨entry, known, rfl⟩ := mem_of_ofDispatch listed labelled
      exact added.1 entry known
    · rw [Recovery.current, placed.scopes, added.2.scopes]
      exact current_ne_size sound

theorem addDispatch_goes {comparison : Comparison} (target : Nat)
    (subject : before.tree.IsEntry terms.catalog comparison.subject) :
    Goes terms (addDispatch comparison target) before := by
  refine .reads ?_
  split
  · refine .last (Runs.changes _ _) (.move .refl (.note rfl rfl rfl rfl fun all =>
      { all with dispatch := ?_ })) trivial
    rintro _ ⟨⟩
    exact subject
  · rename_i dispatch _
    split
    · rename_i same
      refine .last (Runs.changes _ _) (.move .refl (.note rfl rfl rfl rfl fun all =>
        { all with dispatch := ?_ })) trivial
      rintro _ ⟨⟩
      exact same ▸ subject
    · exact unclassified_leads _

theorem dispatchCase_goes (target : Nat) : Goes terms (dispatchCase target) before := by
  refine .sound fun sound => .reads ?_
  split
  · exact unclassified_leads _
  · rename_i comparison compared
    split
    · refine .via (Runs.changes _ _) (.move .refl (.note rfl rfl rfl rfl fun all =>
        { all with comparison := fun _ none_left => by cases none_left })) ?_
      refine (lessStack_goes fun _ => SlotStack.mem_of_mem_drop).bind fun first _ => ?_
      refine (consume_goes _).bind fun second _ => addDispatch_goes target ?_
      exact second.isEntry (first.isEntry (sound.comparison comparison compared))
    · exact unclassified_leads _

end Switches

section Jumps

variable {input : RecoveryInput}

theorem targetOf_leads (command : Nat) (missing : Obstacle) :
    Leads terms (targetOf input command missing) before fun _ after => after = before := by
  refine .lift fun found _ => ?_
  split
  · exact .done rfl
  · exact unclassified_leads _

/-- A loop gets its condition. -/
theorem condition_edits {catalog : ActionCatalog} {tree : ScriptTree} {loop condition : NodeId}
    (value : tree.IsValue catalog condition) :
    tree.Edits catalog ((tree.modify loop fun
      | .whileLoop _ body => .whileLoop (some condition) body
      | .doLoop _ body => .doLoop (some condition) body
      | node => node).setParent condition (some loop)) := by
  have filled : tree.Edit catalog (tree.modify loop fun
      | .whileLoop _ body => .whileLoop (some condition) body
      | .doLoop _ body => .doLoop (some condition) body
      | node => node) := by
    refine .fill ?_ ?_ fun operand used => ?_
    · cases tree.node loop <;> rfl
    · cases tree.node loop <;> rfl
    · cases here : tree.node loop with
      | whileLoop | doLoop =>
          rw [here] at used
          exact .inr ⟨List.mem_singleton.mp used ▸ value, rfl⟩
      | _ =>
          rw [here] at used
          exact .inl used
  exact (Relation.ReflTransGen.single filled).tail (.link loop (filled.isExtension.isValue value))

theorem setCondition_goes (loop : NodeId) {condition : NodeId}
    (value : before.tree.IsValue terms.catalog condition) :
    Goes terms (setCondition loop condition) before :=
  .last (onTree_runs _ _) (.edits (condition_edits value)) trivial

theorem openBranch_goes (start target : Nat) : Goes terms (openBranch start target) before := by
  refine .reads ?_
  split
  · exact unclassified_leads _
  · split
    · exact unclassified_leads _
    · refine takeSlot_yields.bind fun {condition _} _ value => ?_
      have values : ∀ operand ∈ [condition], _ :=
        fun operand used => (List.mem_singleton.mp used).symm ▸ value
      exact (openNode_goes (.branch (some condition) { start, limit := target } none)
        rfl rfl rfl values).bind fun _ _ => .done trivial

theorem jumpZero_goes (start target : Nat) : Goes terms (jumpZero start target) before := by
  refine .reads ?_
  split
  · refine takeSlot_yields.bind fun _ value => (setCondition_goes _ value).bind fun _ _ => ?_
    exact .last (Runs.changes _ _) (.move .refl (.note rfl rfl rfl rfl fun all => { all with }))
      trivial
  · split
    · exact takeSlot_yields.bind fun _ value => setCondition_goes _ value
    · exact openBranch_goes _ _

theorem conditional_goes (command : Nat) : Goes terms (conditional input command) before := by
  refine (targetOf_leads _ _).bind ?_
  rintro destination _ _ rfl
  dsimp only
  split
  · exact dispatchCase_goes _
  · exact jumpZero_goes _ _

/-- A statement without operands. -/
theorem emitPlain_goes {node : Node} (statement : node.isExpression = false)
    (empty : node.statements = []) (plain : node.operands = []) :
    Goes terms (emitNode node) before :=
  emitNode_goes node statement empty fun _ used => absurd (plain ▸ used) List.not_mem_nil

theorem backwardJump_goes (target behind : Nat) :
    Goes terms (backwardJump target behind) before := by
  refine .reads ?_
  split
  · exact unclassified_leads _
  · exact .ite (fun _ => .done trivial) fun _ =>
      .ite (fun _ => emitPlain_goes rfl rfl rfl) fun _ =>
        .ite (fun _ => emitPlain_goes rfl rfl rfl) fun _ => unclassified_leads _

theorem returnPending_goes : Goes terms returnPending before := by
  refine .sound fun sound => .reads (.via (Runs.changes _ _) (.move .refl (.note rfl rfl rfl rfl
    fun all => { all with pendingReturn := fun _ none_left => by cases none_left })) ?_)
  exact emitNode_goes _ rfl rfl fun operand used =>
    sound.pendingReturn operand (Option.mem_toList.mp used)

theorem otherForwardJump_goes (target : Nat) (returns : Bool) :
    Goes terms (otherForwardJump target returns) before := by
  refine .reads ?_
  split
  · exact emitPlain_goes rfl rfl rfl
  · split
    · exact emitPlain_goes rfl rfl rfl
    · split
      · exact emitPlain_goes rfl rfl rfl
      · exact unclassified_leads _

/-- A guarded body gets the end of its else branch. -/
theorem skip_edit {catalog : ActionCatalog} {tree : ScriptTree} {id : NodeId} {target : Nat}
    {node : Node} (skips : withSkip? target (tree.node id) = some node) :
    tree.Edit catalog (tree.modify id fun _ => node) := by
  unfold withSkip? at skips
  split at skips
  · rename_i condition body here
    obtain rfl := Option.some.inj skips
    refine .fill ?_ ?_ fun operand used => .inl ?_
    all_goals rw [here] at *
    · rfl
    · rfl
    · exact used
  · cases skips

theorem forwardJump_goes (target behind : Nat) (returns : Bool) :
    Goes terms (forwardJump target behind returns) before := by
  refine .reads ?_
  dsimp only
  split
  · exact emitPlain_goes rfl rfl rfl
  · split
    · exact returnPending_goes
    · split
      · exact emitPlain_goes rfl rfl rfl
      · split
        · split
          · rename_i node skips
            exact .last (onTree_runs _ _) (.edit (skip_edit skips)) trivial
          · exact otherForwardJump_goes _ _
        · exact otherForwardJump_goes _ _

theorem jump_goes (command : Nat) (defers : input.skipsClosure command → terms.defers) :
    Goes terms (jump input command) before := by
  refine (targetOf_leads _ _).bind ?_
  rintro destination _ _ rfl
  refine .sound fun sound => .reads ?_
  split
  · rename_i skips
    exact .last (Runs.changes _ _) (.move .refl (.defer _ rfl (defers skips))) trivial
  · split
    · rename_i dispatch kept
      exact .via (Runs.changes _ _) (.move .refl (.note rfl rfl rfl rfl fun all =>
        { all with dispatch := fun _ none_left => by cases none_left }))
        (openSwitch_goes (sound.dispatch dispatch kept))
    · split
      · exact backwardJump_goes _ _
      · split
        · exact forwardJump_goes _ _ _
        · exact .done trivial

end Jumps

section Subroutines

variable {input : RecoveryInput}

theorem leaveSubroutine_goes (command : Nat)
    (ends : input.nextLive command = .ok none → terms.ends) :
    Goes terms (leaveSubroutine input command) before := by
  refine .reads ?_
  split
  · refine .lift fun next found => ?_
    split
    · exact returnPending_goes
    · have finish : ∀ {middle : Recovery}, Goes terms
          (modify fun recovery => { recovery with finished := true }) middle :=
        .last (Runs.changes _ _) (.move .refl (.finish (ends found))) trivial
      split
      · exact returnPending_goes.bind fun _ _ => finish
      · exact finish
  · exact .done trivial

theorem finishGlobals_goes (ends : before.tree.kind = .globals → terms.ends) :
    Goes terms finishGlobals before := by
  refine .last (Runs.changes _ _) ?_ trivial
  split
  · rename_i globals
    exact .move .refl (.finish (ends globals))
  · exact .refl

/-- The terms allow what an instruction may do. -/
structure Allows (input : RecoveryInput) (terms : Terms) (command : Nat) : Prop where
  /-- The actions are the same. -/
  catalog : terms.catalog = input.catalog
  /-- A jump behind a saved state begins a deferred argument. -/
  defers : input.program.opcode command = .jump → input.skipsClosure command → terms.defers
  /-- The last return ends the subroutine. -/
  ends : input.program.opcode command = .ret → input.nextLive command = .ok none → terms.ends

/-- An instruction that is executed plays the action without a result that it calls, if it does. -/
theorem execute_acts {command : Nat} (allows : Allows input terms command)
    (globals : before.tree.kind = .globals → terms.ends) {track : Option StepTrack}
    (recorded : Records before track) :
    Acts terms (execute input command track) before (input.command? command).toList := by
  by_cases acts : input.program.opcode command = .action
  · have played := @action_acts terms before (input.program.instruction command)
    have opcode : (input.program.instruction command).opcode = .action := acts
    rw [RecoveryInput.command?, if_pos acts, ← allows.catalog]
    unfold execute
    dsimp only
    rw [opcode, ← allows.catalog]
    exact played
  have silent : input.command? command = none := by simp [RecoveryInput.command?, acts]
  rw [silent]
  refine Goes.acts ?_
  unfold execute
  dsimp only
  split
  · exact reserve_goes _
  · exact constant_goes _
  · exact copyTop_goes recorded finds_stack
  · exact copyDown_goes _ finds_stack
  · exact copyTop_goes recorded finds_globals
  · exact copyDown_goes _ finds_globals
  · exact popSlots_goes
  · exact .reads (stepVariable_goes _ _ _)
  · exact .reads (stepVariable_goes _ _ _)
  · exact .reads (stepVariable_goes _ _ _)
  · exact .reads (stepVariable_goes _ _ _)
  · exact destruct_goes _
  · rename_i action
    exact absurd action acts
  · exact call_goes input command
  · rename_i jump
    exact jump_goes command (allows.defers jump)
  · refine .lift fun state _ => ?_
    split
    · exact lessStack_goes fun _ => SlotStack.mem_of_mem_drop
    · exact conditional_goes command
  · refine .lift fun state _ => ?_
    split
    · exact lessStack_goes fun _ => SlotStack.mem_of_mem_drop
    · exact conditional_goes command
  · rename_i leave
    exact leaveSubroutine_goes command (allows.ends leave)
  · exact finishGlobals_goes globals
  · split
    · exact binary_goes _
    · split
      · exact unary_goes _
      · exact .done trivial

/-- A position is recorded. -/
theorem position_plays (position : Nat) : Plays terms before [] { before with position } :=
  .move .refl (.note rfl rfl rfl rfl fun all => { all with })

theorem visit_acts {command : Nat} (allows : Allows input terms command)
    (globals : before.tree.kind = .globals → terms.ends) :
    Acts terms (visit input command) before (input.command? command).toList := by
  refine .via (Runs.changes _ _) (position_plays _) ?_
  refine (closeScopes_goes _).andThen fun second _ =>
    (openLoops_goes command).andThen fun {_ middle} third _ => .sound fun sound => ?_
  refine .via (.reads _) .refl (.via (Runs.changes _ _) (.move .refl (.note rfl rfl rfl rfl
    fun all => { all with track := fun _ _ none_left => by cases none_left })) ?_)
  refine execute_acts allows (fun kind => globals ?_) sound.track
  exact (second.trans third).isExtension.kind.symm.trans kind

theorem complete_goes : Goes terms complete before := by
  refine (closeScopes_goes _).bind fun _ _ => .reads ?_
  split
  · exact returnPending_goes
  · exact .done trivial

end Subroutines

end Recover
end NwScript
