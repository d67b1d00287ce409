import NwScript.Proofs.ValueMoves
import NwScript.Recovery.Copies
import NwScript.Recovery.Invocations
import NwScript.Recovery.Operations

/-!
# Moves of statements

Declarations, copies, pops, operators and calls, as moves of a recovery.  Statements are attached when
they are made; declarations and changes by one may be taken out again.
-/

namespace NwScript
namespace Recover

open Recovery

variable {terms : Terms} {before : Recovery} {entries : List StackEntry}

section Notes

/-- The entries of a slot list are sound. -/
abbrev AreEntries (terms : Terms) (recovery : Recovery) (entries : List StackEntry) : Prop :=
  ∀ entry ∈ entries, recovery.tree.IsEntry terms.catalog entry

theorem pushAll_goes (sound : AreEntries terms before entries) :
    Goes terms (onStack (·.pushAll entries)) before := by
  refine .last (onStack_runs _ _) (.slots fun all other listed => ?_) trivial
  rcases SlotStack.mem_pushAll_iff.mp listed with old | new
  · exact all.stack other old
  · exact sound other new

/-- What the last instruction copied is recorded. -/
theorem copied_goes (temporary source : VarId) :
    Goes terms (modify fun recovery =>
      { recovery with track := some (.copied temporary source) }) before :=
  .last (.changes _ _) (.move .refl (.note rfl rfl rfl rfl fun sound =>
    { sound with track := fun _ _ same => by cases same })) trivial

end Notes

section Declarations

theorem declare_goes {var : VarId} (isLocal : before.tree.kind = .function →
    before.tree.vars.IsLocal var) : Goes terms (declare var) before := by
  refine .sound fun sound => .via (addNode_runs _ _) (.edit (addStatement_edit _ rfl rfl fun _ used =>
    absurd used List.not_mem_nil)) ?_
  have unplaced := isUnplaced_add (.declaration var none false) sound rfl rfl
  refine .via (onVar_runs _ _ _) (.edit (.vars (.declare ⟨unplaced.inside, ?_⟩ ?_))) ?_
  · exact ⟨var, none, false, ScriptTree.node_add_self _ _⟩
  · simpa using isLocal
  · exact .last (emit_runs _ _) (.move .refl (.emit
      ⟨unplaced.inside, unplaced.statement, unplaced.deep, unplaced.free⟩ (current_ne_size sound))) trivial

/-- A new variable of its own. -/
theorem addVar_edit (kind : VarKind) (type : Ty) :
    before.tree.Edit terms.catalog
      { before.tree with vars := (before.tree.vars.add { kind, type }).1 } :=
  .vars (.add (fun _ none => by cases none) rfl rfl rfl)

theorem reserveVector_goes {kind : VarKind}
    (isLocal : before.tree.kind = .function → kind = .localVar) :
    Goes terms (reserveVector kind) before := by
  let entry : Variable := { kind, type := .float }
  let first := (before.tree.vars.add entry).1
  let second := (first.add entry).1
  let third := (second.add entry).1
  have added : ∀ var ∈ [before.tree.vars.size, first.size, second.size],
      third.get? var = some entry := by
    simp [first, second, third, VarTable.get?_add]
  have leaves : ∀ var ∈ [before.tree.vars.size, first.size, second.size],
      third.members var = [] := fun var listed => VarTable.members_of_get? (added var listed)
  refine .via (addVar_runs _ _) (.edit (addVar_edit kind .float)) ?_
  refine .via (addVar_runs _ _) (.edit (addVar_edit kind .float)) ?_
  refine .via (addVar_runs _ _) (.edit (addVar_edit kind .float)) ?_
  have grouping : { before.tree with vars := third }.Edits terms.catalog
      { before.tree with
        vars := (third.group [before.tree.vars.size, first.size, second.size]).1 } :=
    ScriptTree.group_edits { before.tree with vars := third } leaves
  refine .via (group_runs _ _) (.edits grouping) ?_
  refine .via (onStack_runs _ _) (.slots fun all other listed => ?_) ?_
  · rcases SlotStack.mem_pushAll_iff.mp listed with old | new
    · exact all.stack other old
    · have slots : AreEntries terms { before with tree := { before.tree with vars := third } }
          [.var before.tree.vars.size, .var first.size, .var second.size] := by
        have sound : ∀ var ∈ [before.tree.vars.size, first.size, second.size],
            var < third.size ∧ third.members var = [] := fun var listed =>
          ⟨VarTable.lt_of_get? (added var listed), leaves var listed⟩
        simpa [AreEntries, ScriptTree.IsEntry] using sound
      exact grouping.isExtension.isEntry (slots other new)
  · split
    · rename_i vector grouped
      refine declare_goes fun function => VarTable.isLocal_of_group (fun member listed => ?_)
        (Prod.ext rfl grouped)
      rw [VarTable.kind, added member listed]
      exact isLocal function
    · exact .done trivial

theorem reserve_goes (code : TypeCode) : Goes terms (reserve code) before := by
  refine .reads ?_
  dsimp only
  split
  · refine reserveVector_goes fun function => ?_
    rw [function]
    rfl
  · refine .via (addVar_runs _ _) (.edit (addVar_edit _ _)) ?_
    refine .via (push_runs _ _) (.slots fun all entry listed => ?_) (declare_goes fun function => ?_)
    · rcases Array.mem_push.mp listed with old | rfl
      · exact all.stack entry old
      · exact ⟨by simp, VarTable.members_add_self _ _⟩
    · refine ⟨(VarTable.kind_add_self _ _).trans ?_, fun member listed => ?_⟩
      · simp [show before.tree.kind = .function from function]
      · rw [show (before.tree.vars.add _).1.members _ = _ from VarTable.members_add_self _ _] at listed
        cases listed

end Declarations

section Copies

theorem pushLiteral_goes {step : Recover NodeId} (yields : Yields terms step before) :
    Goes terms (step >>= fun node => push (.literal node)) before :=
  yields.bind fun {node _} _ value => push_goes (.literal node) fun _ => value

theorem constant_goes (instruction : Instruction) : Goes terms (constant instruction) before := by
  unfold constant
  split
  · exact pushLiteral_goes
      (addNode_yields rfl (fun _ used => absurd used List.not_mem_nil) rfl ⟨rfl, rfl⟩)
  · exact .reads (.fail _)

theorem pushUnknown_goes (count : Nat) : Goes terms (pushUnknown count) before := by
  induction count generalizing before with
  | zero => exact .done trivial
  | succ count induction =>
      refine unknownOperand_yields.bind fun {node _} _ value => ?_
      exact (push_goes (.literal node) fun _ => value).bind fun _ _ => induction

theorem pushUse_goes (var : VarId) (width : Nat) : Goes terms (pushUse var width) before :=
  (commit_goes var).bind fun _ _ => .reads ((reference_yields var).bind fun _ value =>
    pushValue_goes _ value width)

theorem pushEach_goes (sound : AreEntries terms before entries) :
    Goes terms (pushEach entries) before := by
  induction entries generalizing before with
  | nil => exact .done trivial
  | cons entry entries induction =>
      have first := sound entry List.mem_cons_self
      have others : ∀ {middle}, Plays terms before [] middle → AreEntries terms middle entries :=
        fun plays other listed => plays.isEntry (sound other (List.mem_cons_of_mem _ listed))
      unfold pushEach
      split
      · refine .reads ?_
        split
        · refine (pushUse_goes _ 1).bind fun plays _ => induction (others plays)
        · exact (push_goes _ fun _ => first).bind fun plays _ => induction (others plays)
      · exact (push_goes _ fun _ => first).bind fun plays _ => induction (others plays)

theorem pushCopies_goes (sound : AreEntries terms before entries) :
    Goes terms (pushCopies entries) before := by
  refine (namedValue_goes fun _ => sound).bind fun {named _} plays _ => ?_
  cases named with
  | some var => exact (pushUse_goes var _).bind fun _ _ => copied_goes _ var
  | none => exact pushEach_goes fun entry listed => plays.isEntry (sound entry listed)

/-- The recorded change by one is a statement of the tree. -/
def Records (recovery : Recovery) (track : Option StepTrack) : Prop :=
  ∀ statement target, track = some (.stepped statement target) → recovery.tree.IsStep statement

/-- A change by one comes before its value. -/
theorem advance_edit (tree : ScriptTree) (id : NodeId) :
    tree.Edit terms.catalog (tree.modify id fun
      | .step op _ place => .step op true place
      | node => node) := by
  refine .fill ?_ ?_ fun operand used => .inl ?_
  all_goals
    cases here : tree.node id <;> first
      | rfl
      | rw [here] at used
        exact used

theorem stepBefore_goes {statement : NodeId} (target : VarId)
    (stepped : before.tree.IsStep statement) : Goes terms (stepBefore statement target) before := by
  obtain ⟨inside, expression, op, former, place, states, deeper, steps⟩ := id stepped
  refine .reads ?_
  rw [states]
  have taken : before.tree.Edit terms.catalog (before.tree.detach statement).1 :=
    .detach (.inr stepped)
  have advanced : ScriptTree.Edit terms.catalog _ _ :=
    advance_edit (before.tree.detach statement).1 expression
  refine .via (onTree_runs _ _) (.edits ((Relation.ReflTransGen.single taken).tail advanced)) ?_
  refine .reads ((pushValue_goes _ ?_ 1).bind fun _ _ => .done trivial)
  refine (taken.isExtension.trans advanced.isExtension).isValue ⟨deeper, ?_, ?_⟩ <;>
    rw [steps] <;> rfl

/-- A copy completes a change by one only if the last instruction made it a statement. -/
theorem track_of_steppedBefore? {input : RecoveryInput} {command : Nat} {track : Option StepTrack}
    {statement : NodeId} {target : VarId}
    (found : steppedBefore? input command track entries = .ok (some (statement, target))) :
    track = some (.stepped statement target) := by
  unfold steppedBefore? at found
  split at found
  · split at found
    · cases origins : input.table.origins command with
      | error fault =>
          rw [origins] at found
          cases found
      | ok value =>
          rw [origins] at found
          have same := Except.ok.inj found
          split at same
          · obtain ⟨rfl, rfl⟩ := Prod.mk.inj (Option.some.inj same)
            rfl
          · cases same
    · cases found
  · cases found

theorem copyEntries_goes {input : RecoveryInput} {command : Nat} {track : Option StepTrack}
    (recorded : Records before track) (sound : AreEntries terms before entries) :
    Goes terms (copyEntries input command track entries) before := by
  unfold copyEntries
  refine .lift fun found known => ?_
  split
  · rename_i statement target
    exact stepBefore_goes target (recorded statement target (track_of_steppedBefore? known))
  · split
    · exact .reads (.fail _)
    · refine .reads ?_
      split
      · exact pushAll_goes sound
      · exact pushCopies_goes sound

theorem globalEntries_sound (sound : before.IsSound terms.catalog) (offset : Int) (size : Nat) :
    AreEntries terms before (globalEntries before offset size) := by
  intro entry listed
  obtain ⟨index, _, found⟩ := List.mem_filterMap.mp listed
  dsimp only at found
  split at found
  · obtain ⟨var, there, rfl⟩ := Option.map_eq_some_iff.mp found
    exact sound.globals var (List.mem_of_getElem? there)
  · cases found

/-- What a copy addresses may be on the stack. -/
def Finds (find : Recovery → Int → Nat → Option (List StackEntry)) : Prop :=
  ∀ {terms : Terms} {recovery : Recovery} {offset : Int} {size : Nat} {entries : List StackEntry},
    recovery.IsSound terms.catalog → find recovery offset size = some entries →
      AreEntries terms recovery entries

theorem finds_stack : Finds stackEntries? := by
  intro terms recovery offset size entries sound found
  obtain ⟨range, _, rfl⟩ := Option.map_eq_some_iff.mp found
  exact fun entry listed => sound.stack entry (SlotStack.mem_of_mem_slice listed)

theorem finds_globals : Finds globalEntries? := by
  intro terms recovery offset size entries sound found
  unfold globalEntries? at found
  dsimp only at found
  split at found
  · obtain rfl := Option.some.inj found
    exact globalEntries_sound sound offset size
  · cases found

variable {find : Recovery → Int → Nat → Option (List StackEntry)}

theorem copyOperand_leads (instruction : Instruction) :
    Leads terms (copyOperand instruction) before fun _ after => after = before := by
  unfold copyOperand
  split
  · exact .done rfl
  · exact .reads (.fail _)

theorem copyTop_goes {input : RecoveryInput} {command : Nat} {track : Option StepTrack}
    (recorded : Records before track) (finds : Finds find) :
    Goes terms (copyTop input command track find) before := by
  refine .sound fun sound => (copyOperand_leads _).bind ?_
  rintro ⟨offset, size⟩ _ plays rfl
  refine .reads ?_
  split
  · rename_i entries found
    exact copyEntries_goes recorded (finds sound found)
  · exact pushUnknown_goes _

theorem holdReturn_goes (width : Nat) : Goes terms (holdReturn width) before := by
  refine (takeValue_yields width).bind fun {value middle} _ taken => ?_
  refine .via (Runs.changes _ _) (.move .refl (.note rfl rfl rfl rfl fun sound =>
    { sound with pendingReturn := ?_ })) ?_
  · rintro _ ⟨⟩
    exact taken
  · exact unknownOperand_yields.bind fun _ held => .reads
      ((pushValue_goes _ held width).bind fun {temporary _} _ _ => useUp_goes temporary)

theorem assign_goes (sound : AreEntries terms before entries) :
    Goes terms (assign entries) before := by
  refine .reads ?_
  split
  · exact holdReturn_goes _
  · refine (namedValue_goes fun _ => sound).bind fun {named _} _ _ => ?_
    cases named with
    | none => exact .fail _
    | some target =>
        refine (commit_goes target).bind fun _ _ => (takeValue_yields _).bind fun _ value =>
          (reference_yields target).bind fun later place => ?_
        refine (addNode_yields rfl ?_ rfl ⟨rfl, rfl⟩).bind fun _ assignment =>
          .reads ((pushValue_goes _ assignment _).bind fun _ _ => .done trivial)
        simp [Node.operands, place, later.isValue value]

theorem copyDown_goes (instruction : Instruction) (finds : Finds find) :
    Goes terms (copyDown instruction find) before := by
  refine .sound fun sound => (copyOperand_leads _).bind ?_
  rintro ⟨offset, size⟩ _ plays rfl
  refine .reads ?_
  split
  · rename_i entries found
    exact assign_goes (finds sound found)
  · exact .done trivial

end Copies

section Pops

theorem statement_goes {value : NodeId} (sound : before.tree.IsValue terms.catalog value) :
    Goes terms (emitNode (.statement value)) before :=
  emitNode_goes _ rfl rfl (by simpa [Node.operands] using sound)

theorem dropTemporary_goes (var : VarId) : Goes terms (dropTemporary var) before := by
  refine .sound fun sound => .reads ?_
  split
  · rename_i value found
    split
    · exact statement_goes (sound.tree.values found rfl)
    · exact .done trivial
  · exact .done trivial

theorem dropLocal_goes (var : VarId) : Goes terms (dropLocal var) before := by
  refine .sound fun sound => .reads ?_
  dsimp only
  split
  · rename_i declaration call found
    obtain ⟨declares, value⟩ := pendingCall_isValue sound found
    split
    · refine (discard_goes ?_).bind fun plays _ => ?_
      · simp [(pendingCall?_eq_some found).1]
      have stated := addStatement_edit (.statement call) rfl rfl
        (by simpa [Node.operands] using plays.isValue value)
      refine .via (addNode_runs _ _) (.edit stated) ?_
      refine .via (onTree_runs _ _) (.edit (.replace ?_ ?_ ?_)) (.done trivial)
      · exact stated.isExtension.isDeclaration (plays.isExtension.isDeclaration declares)
      · exact isUnplaced_add _ (plays.isSound sound) rfl rfl
      · rw [ScriptTree.children_eq, ScriptTree.node_add_self]
        rfl
    · exact .done trivial
  · exact .done trivial

theorem dropSlots_goes (found : List VarId) (count : Nat) :
    Goes terms (dropSlots found count) before := by
  induction count generalizing before found with
  | zero => exact .done trivial
  | succ count induction =>
      refine .reads ?_
      split
      · exact .done trivial
      · rename_i entry rest popped
        obtain ⟨_, lower⟩ := SlotStack.mem_of_pop? popped
        refine (lessStack_goes lower).bind fun _ _ => ?_
        split
        · exact induction found
        · split
          · exact induction found
          · refine .reads ?_
            split
            · exact (dropTemporary_goes _).bind fun _ _ => induction found
            · refine (dropLocal_goes _).bind fun {dropped _} _ _ => ?_
              cases dropped with
              | some root => exact induction _
              | none => exact induction found
            · exact induction found

/-- A statement that declares one of some variables goes on being a declaration when a node is added. -/
theorem isDeclaration_add {tree : ScriptTree} {locals : List VarId} {statement : NodeId}
    (declares : declaresOne tree locals statement = true) (node : Node) :
    (tree.add node).1.IsDeclaration statement := by
  unfold declaresOne at declares
  split at declares
  · rename_i var init pending here
    have inside : statement < tree.size := ScriptTree.lt_of_node here nofun
    refine ⟨by simpa using Nat.lt_succ_of_lt inside, var, init, pending, ?_⟩
    rw [ScriptTree.node_add_of_lt node inside, here]
  · cases declares

theorem wrapLocals_goes {input : RecoveryInput} {command : Nat} (locals : List VarId) :
    Goes terms (wrapLocals input command locals) before := by
  refine .sound fun sound => .reads (.lift fun continues _ => ?_)
  dsimp only
  split
  · split
    · exact .done trivial
    · rename_i first found
      let node : Node :=
        .block { start := before.position, limit := input.program.positionAfter command }
      have same : (before.tree.add node).1.node before.current = before.tree.node before.current :=
        ScriptTree.node_add_of_lt _ (ScriptTree.lt_of_body? sound.current)
      have here : (before.tree.add node).1.node before.tree.size = node := ScriptTree.node_add_self _ _
      refine .via (addNode_runs _ _) (.edit (addStatement_edit _ rfl rfl fun _ used =>
        absurd used List.not_mem_nil)) (.last (onTree_runs _ _) (.edit ?_) trivial)
      have listed : first ≤ ((before.tree.add node).1.children before.current).length := by
        rw [ScriptTree.children_eq, same]
        exact Nat.le_of_lt (List.findIdx?_eq_some_iff_getElem.mp found).1
      have declares : ∀ child, ((before.tree.add node).1.children before.current)[first]? = some child →
          (before.tree.add node).1.IsDeclaration child := by
        intro child held
        rw [ScriptTree.children_eq, same] at held
        obtain ⟨within, declared, _⟩ := List.findIdx?_eq_some_iff_getElem.mp found
        obtain ⟨_, rfl⟩ := List.getElem?_eq_some_iff.mp held
        exact isDeclaration_add declared node
      have wrapping : ScriptTree.Edit terms.catalog (before.tree.add node).1 _ :=
        .wrap listed (isUnplaced_add node sound rfl rfl) (by rw [ScriptTree.children_eq, here]; rfl)
          (by rw [here]; rfl) (by rw [same]; exact sound.current) (current_ne_size sound) declares
      rw [ScriptTree.wrapped, ScriptTree.children_eq, same, ← ScriptTree.children_eq] at wrapping
      exact wrapping
  · exact .done trivial

theorem popSlots_goes {input : RecoveryInput} {command : Nat} :
    Goes terms (popSlots input command) before := by
  unfold popSlots
  split
  · exact .reads (.fail _)
  · refine (dropSlots_goes [] _).bind fun {locals _} _ _ => ?_
    split
    · exact wrapLocals_goes locals
    · exact .done trivial

end Pops

section Operations

/-- A statement that has just been made of a change by one is one. -/
theorem isStep_add (tree : ScriptTree) (op : StepOp) (place : NodeId) :
    ((tree.add (.step op false place)).1.add (.statement tree.size)).1.IsStep (tree.size + 1) := by
  have stated := ScriptTree.node_add_self (tree.add (.step op false place)).1 (.statement tree.size)
  have stepped := ScriptTree.node_add_self tree (.step op false place)
  rw [ScriptTree.size_add] at stated
  have inside : tree.size < (tree.add (.step op false place)).1.size := by simp
  refine ⟨by simp, tree.size, op, false, place, stated, ?_, ?_⟩
  · exact (ScriptTree.Extends.add _ _).size.trans_lt' inside
  · rw [ScriptTree.node_add_of_lt _ inside, stepped]

theorem stepVariable_goes (op : StepOp) (target : Option StackEntry) (track : Option StepTrack) :
    Goes terms (stepVariable op target track) before := by
  refine .reads ?_
  split
  · exact .fail _
  · rename_i var _
    refine (commit_goes var).bind fun _ _ => (reference_yields var).bind fun {place middle} _ known =>
      .sound fun sound => ?_
    have value : (middle.tree.add (.step op false place)).1.IsValue terms.catalog middle.tree.size :=
      ScriptTree.isValue_add _ _ rfl rfl
    have stepping : middle.tree.Edit terms.catalog (middle.tree.add (.step op false place)).1 :=
      .add (by simpa [Node.operands] using known) rfl (.inl ⟨rfl, rfl⟩)
    refine .via (addNode_runs _ _) (.edit stepping) ?_
    have grown := (Plays.edit stepping).isSound sound
    split
    · refine onVar_goes fun entry => ⟨some _, entry.consumed, rfl, fun found same => .inr ?_⟩
      cases same
      exact value
    · refine .via (addNode_runs _ _) (.edit (addStatement_edit (.statement _) rfl rfl
        (by simpa [Node.operands] using value))) ?_
      refine .via (emit_runs _ _) (.move .refl (.emit (isUnplaced_add _ grown rfl rfl)
        (current_ne_size grown))) ?_
      refine .last (Runs.changes _ _) (.move .refl (.note rfl rfl rfl rfl fun all =>
        { all with track := ?_ })) trivial
      rintro _ _ ⟨⟩
      have step := isStep_add middle.tree op place
      rw [← ScriptTree.size_add middle.tree (.step op false place)] at step
      exact (ScriptTree.Rearranges.append _ _ _).isExtension.isStep step

theorem destruct_goes (instruction : Instruction) : Goes terms (destruct instruction) before := by
  refine .reads ?_
  split
  · dsimp only
    split
    · exact .fail _
    · refine (takeValue_yields _).bind fun {base _} _ value => ?_
      refine (addNode_yields rfl ?_ rfl ⟨rfl, rfl⟩).bind fun _ access =>
        (pushValue_goes _ access _).bind fun _ _ => .done trivial
      simpa [Node.operands] using value
  · exact .fail _

/-- The node of a binary instruction combines its operands. -/
theorem binaryNode?_spec {opcode : Opcode} {left right : NodeId} {node : Node}
    (found : binaryNode? opcode left right = some node) :
    node.operands = [left, right] ∧ node.isExpression ∧
      (∀ catalog, node.isCommand catalog = false) ∧ node.statements = [] ∧
        node.isClosure = false := by
  unfold binaryNode? at found
  split at found
  · obtain rfl := Option.some.inj found
    exact ⟨rfl, rfl, fun _ => rfl, rfl, rfl⟩
  · obtain ⟨op, _, rfl⟩ := Option.map_eq_some_iff.mp found
    exact ⟨rfl, rfl, fun _ => rfl, rfl, rfl⟩

theorem subject_of_comparison? {tree : ScriptTree} {subject : Option StackEntry} {right : NodeId}
    {result : VarId} {comparison : Comparison}
    (found : comparison? tree subject right result = some comparison) :
    subject = some comparison.subject := by
  unfold comparison? at found
  split at found
  · obtain rfl := Option.some.inj found
    rfl
  · cases found

theorem binary_goes (instruction : Instruction) : Goes terms (binary instruction) before := by
  refine .sound fun sound => .reads ?_
  split
  · exact .fail _
  · rename_i leftWidth rightWidth _
    refine (takeValue_yields _).bind fun {right _} first kept => ?_
    refine (takeValue_yields _).bind fun {left _} second value => ?_
    split
    · exact .fail _
    · rename_i node found
      obtain ⟨operands, expression, plain, bare⟩ := binaryNode?_spec found
      refine (addNode_yields expression ?_ (plain _) bare).bind fun third formed => ?_
      · rw [operands]
        simp [value, second.isValue kept]
      refine (pushValue_goes _ formed _).bind fun {result _} fourth _ => ?_
      refine .last (Runs.changes _ _) (.move .refl (.note rfl rfl rfl rfl fun all =>
        { all with comparison := fun comparison compared => ?_ })) trivial
      dsimp only at compared ⊢
      split at compared
      · have subject := before.stack.mem_of_peek? (subject_of_comparison? compared)
        exact fourth.isEntry (third.isEntry (second.isEntry (first.isEntry (sound.stack _ subject))))
      · cases compared

theorem unary_goes (instruction : Instruction) : Goes terms (unary instruction) before := by
  unfold unary
  split
  · exact .reads (.fail _)
  · refine (takeValue_yields 1).bind fun {operand _} _ value => ?_
    refine (addNode_yields rfl ?_ rfl ⟨rfl, rfl⟩).bind fun _ formed =>
      (pushValue_goes _ formed 1).bind fun _ _ => .done trivial
    simpa [Node.operands] using value

end Operations

section Invocations

theorem actionArgument_yields (type : Ty) : Yields terms (actionArgument type) before := by
  unfold actionArgument
  split
  · refine .sound fun sound => .reads ?_
    split
    · rename_i closure closures kept
      have listed : ∀ other ∈ closure :: closures, before.tree.IsValue terms.catalog other :=
        fun other here => sound.closures other (kept ▸ here)
      refine .via (Runs.changes _ _) (.move .refl (.note rfl rfl rfl rfl fun all =>
        { all with
          closures := fun other here => listed other (List.mem_cons_of_mem _ here) }))
        (.done (listed closure List.mem_cons_self))
    · exact unknownOperand_yields
  · exact takeValue_yields _

/-- Arguments taken one after another are values. -/
theorem arguments_lead {α : Type} (items : List α) {step : α → Recover NodeId}
    (each : ∀ item before, Yields terms (step item) before) :
    Leads terms (items.mapM step) before fun arguments after =>
      ∀ argument ∈ arguments, after.tree.IsValue terms.catalog argument := by
  induction items generalizing before with
  | nil => exact .done fun _ listed => absurd listed List.not_mem_nil
  | cons item items induction =>
      rw [List.mapM_cons]
      refine (each item before).bind fun {argument _} _ value => ?_
      refine induction.bind fun {arguments _} plays values => .done ?_
      exact List.forall_mem_cons.mpr ⟨plays.isValue value, values⟩

theorem callArgument_yields (index width : Nat) :
    Yields terms (callArgument index width) before := by
  refine .reads ?_
  split
  · exact addNode_yields rfl (fun _ used => absurd used List.not_mem_nil) rfl ⟨rfl, rfl⟩
  · exact takeValue_yields width

theorem callArguments_lead (index : Nat) (widths : List Nat) :
    Leads terms (callArguments index widths) before fun arguments after =>
      ∀ argument ∈ arguments, after.tree.IsValue terms.catalog argument := by
  induction widths generalizing before index with
  | nil => exact .done fun _ listed => absurd listed List.not_mem_nil
  | cons width widths induction =>
      refine (callArgument_yields index width).bind fun {argument _} _ value => ?_
      refine (induction (index + 1)).bind fun {arguments _} plays values => .done ?_
      exact List.forall_mem_cons.mpr ⟨plays.isValue value, values⟩

theorem isFresh_isLocal {var : VarId} (fresh : isFresh before var) :
    before.tree.vars.kind var = .localVar := by
  unfold isFresh at fresh
  split at fresh
  · rename_i known
    rw [VarTable.kind, known]
  · cases fresh

/-- The slots for a result are fresh locals among the entries. -/
theorem mem_freshLocals {found : List VarId} {var : VarId}
    (listed : var ∈ freshLocals before found entries) :
    var ∈ found ∨ isFresh before var ∧ .var var ∈ entries := by
  induction entries generalizing found with
  | nil => exact .inl listed
  | cons entry entries induction =>
      cases entry with
      | literal node => exact .inl listed
      | var id =>
          rw [freshLocals] at listed
          split at listed
          · rename_i fresh
            rcases induction listed with known | ⟨here, later⟩
            · rcases List.mem_append.mp known with old | new
              · exact .inl old
              · rw [List.mem_singleton.mp new]
                exact .inr ⟨fresh.1, List.mem_cons_self⟩
            · exact .inr ⟨here, List.mem_cons_of_mem _ later⟩
          · exact .inl listed

theorem mem_of_reservedSlots? {width : Nat} {slots : List VarId}
    (found : reservedSlots? before width = some slots) {var : VarId} (listed : var ∈ slots) :
    before.tree.vars.kind var = .localVar ∧ .var var ∈ before.stack.slots := by
  obtain ⟨⟨entries, rest⟩, popped, found⟩ := Option.bind_eq_some_iff.mp found
  dsimp only at found
  split at found
  · obtain rfl := Option.some.inj found
    rcases mem_freshLocals listed with none_found | ⟨fresh, there⟩
    · cases none_found
    · exact ⟨isFresh_isLocal fresh, SlotStack.mem_of_popMany? popped there⟩
  · cases found

section Declaring

variable {catalog : ActionCatalog} {tree : ScriptTree}

/-- Declarations are taken out one after another. -/
theorem detachAll_edits {declarations : List NodeId}
    (declare : ∀ declaration ∈ declarations, tree.IsDeclaration declaration) :
    tree.Edits catalog (declarations.foldl (fun tree other => (tree.detach other).1) tree) := by
  induction declarations generalizing tree with
  | nil => exact .refl
  | cons first others induction =>
      have taken : tree.Edit catalog (tree.detach first).1 :=
        .detach (.inl (declare first List.mem_cons_self))
      exact .head taken (induction fun other listed =>
        taken.isExtension.isDeclaration (declare other (List.mem_cons_of_mem _ listed)))

/-- A statement takes the place of some declarations. -/
theorem replaceAll_edits {declarations : List NodeId} {statement : NodeId}
    (declare : ∀ declaration ∈ declarations, tree.IsDeclaration declaration)
    (unplaced : tree.IsUnplaced statement) (bare : tree.children statement = []) :
    tree.Edits catalog (tree.replaceAll statement declarations) := by
  cases declarations with
  | nil => exact .refl
  | cons first others =>
      have replaced : tree.Edit catalog (tree.replace first statement).1 :=
        .replace (declare first List.mem_cons_self) unplaced bare
      exact .head replaced (detachAll_edits fun other listed =>
        replaced.isExtension.isDeclaration (declare other (List.mem_cons_of_mem _ listed)))

/-- An aggregate of locals is declared in place of its members. -/
theorem declareWhole_edits {aggregate : VarId} {declaration : NodeId}
    (declares : tree.IsDeclaration declaration)
    (isLocal : tree.kind = .function → tree.vars.IsLocal aggregate) :
    tree.Edits catalog (tree.declareWhole aggregate declaration) := by
  have undeclared : ∀ (members : List VarId) (tree : ScriptTree),
      tree.Edits catalog { tree with
        vars := members.foldl (fun table id => table.modify id fun entry =>
          { entry with declaration := none }) tree.vars } := by
    intro members
    induction members with
    | nil => exact fun tree => .refl
    | cons member members induction =>
        exact fun tree => .head (.vars (.undeclare member)) (induction _)
  rw [ScriptTree.declareWhole, ScriptTree.foldl_modifyVar]
  refine (undeclared _ _).tail (.vars (.declare ?_ fun function => ?_))
  · exact (undeclared (tree.vars.members aggregate) tree).isExtension.isDeclaration declares
  · exact (isLocal function).foldl_modify (fun entry => { entry with declaration := none })
      (fun _ => rfl) (fun _ => rfl) _

end Declaring

theorem declareTogether_goes {members : List VarId} {aggregate : VarId}
    (isLocal : before.tree.kind = .function → before.tree.vars.IsLocal aggregate) :
    Goes terms (declareTogether members aggregate) before := by
  refine .sound fun sound => ?_
  have adding : before.tree.Edit terms.catalog
      (before.tree.add (.declaration aggregate none false)).1 :=
    addStatement_edit _ rfl rfl fun _ used => absurd used List.not_mem_nil
  refine .via (addNode_runs _ _) (.edit adding) (.last (onTree_runs _ _) (.edits ?_) trivial)
  have here := ScriptTree.node_add_self before.tree (.declaration aggregate none false)
  have grown := adding.isSound sound.tree
  have replaced : ScriptTree.Edits terms.catalog (before.tree.add _).1
      ((before.tree.add _).1.replaceAll before.tree.size
        (members.filterMap (before.tree.add _).1.vars.declaration?)) :=
    replaceAll_edits (fun declaration listed => by
      obtain ⟨member, _, declares⟩ := List.mem_filterMap.mp listed
      exact grown.declared declares) (isUnplaced_add _ sound rfl rfl)
      (by rw [ScriptTree.children_eq, here]; rfl)
  have declares : (before.tree.add (.declaration aggregate none false)).1.IsDeclaration
      before.tree.size := ⟨by simp, aggregate, none, false, here⟩
  obtain ⟨_, _, same⟩ := ScriptTree.replaceAll_sizes
    (before.tree.add (.declaration aggregate none false)).1 before.tree.size
    (members.filterMap (before.tree.add (.declaration aggregate none false)).1.vars.declaration?)
  refine replaced.trans (declareWhole_edits (replaced.isExtension.isDeclaration declares)
    fun function => ?_)
  rw [same, ScriptTree.vars_add]
  refine isLocal (Eq.trans ?_ function)
  exact (adding.isExtension.kind.symm.trans replaced.isExtension.kind.symm)

theorem resultTarget_goes {slots : List VarId} (locals : ∀ slot ∈ slots,
    before.tree.vars.kind slot = .localVar ∧ before.tree.IsEntry terms.catalog (.var slot)) :
    Goes terms (resultTarget slots) before := by
  unfold resultTarget
  split
  · exact .done trivial
  · refine .via (group_runs _ _)
      (.edits (before.tree.group_edits fun slot listed => (locals slot listed).2.2)) ?_
    split
    · rename_i aggregate grouped
      refine (declareTogether_goes fun _ => ?_).bind fun _ _ => .done trivial
      exact VarTable.isLocal_of_group (fun slot listed => (locals slot listed).1)
        (Prod.ext rfl grouped)
    · exact .done trivial

/-- A call result waits in a declaration. -/
theorem receive_edits {catalog : ActionCatalog} {tree : ScriptTree} {declaration call : NodeId}
    (declares : tree.IsDeclaration declaration) (value : tree.IsValue catalog call) :
    tree.Edits catalog ((tree.modify declaration fun
      | .declaration var _ _ => .declaration var (some call) true
      | node => node).setParent call (some declaration)) := by
  obtain ⟨_, var, init, pending, here⟩ := declares
  have filled : tree.Edit catalog (tree.modify declaration fun
      | .declaration var _ _ => .declaration var (some call) true
      | node => node) := by
    refine .fill ?_ ?_ fun operand used => .inr ?_
    all_goals rw [here] at *
    · rfl
    · rfl
    · exact ⟨List.mem_singleton.mp used ▸ value, rfl⟩
  exact (Relation.ReflTransGen.single filled).tail
    (.link declaration (filled.isExtension.isValue value))

theorem attachResult_goes {call : NodeId} (width : Nat)
    (value : before.tree.IsValue terms.catalog call) :
    Goes terms (attachResult call width) before := by
  refine .sound fun sound => .reads ?_
  split
  · exact statement_goes value
  · rename_i slots found
    refine (resultTarget_goes fun slot listed => ?_).bind fun {target _} plays _ => ?_
    · obtain ⟨kind, there⟩ := mem_of_reservedSlots? found listed
      exact ⟨kind, sound.stack _ there⟩
    cases target with
    | none => exact statement_goes (plays.isValue value)
    | some target =>
        refine .sound fun sound => .reads ?_
        split
        · exact .done trivial
        · rename_i declaration declares
          exact .last (onTree_runs _ _)
            (.edits (receive_edits (sound.tree.declared declares) (plays.isValue value))) trivial

theorem call_goes (input : RecoveryInput) (command : Nat) :
    Goes terms (call input command) before := by
  unfold call
  split
  · exact unclassified_leads _
  · dsimp only
    refine (callArguments_lead 0 _).bind fun {arguments _} _ values => ?_
    refine (addNode_yields rfl ?_ rfl ⟨rfl, rfl⟩).bind fun _ value => ?_
    · exact values
    split
    · exact statement_goes value
    · exact attachResult_goes _ value

/-- The action that an instruction calls, if it has no result. -/
def command? (catalog : ActionCatalog) (instruction : Instruction) : Option Nat :=
  (instruction.actionOperand?.map (·.1)).filter fun id =>
    ((catalog.returnType? id).getD .void).slots = 0

/-- An action without a result becomes a statement, and a call of any other one is a value. -/
theorem action_acts (instruction : Instruction) :
    Acts terms (action terms.catalog instruction) before
      (command? terms.catalog instruction).toList := by
  unfold action
  split
  · rename_i unnamed
    rw [command?, unnamed]
    exact Goes.acts (.reads (.fail _))
  · rename_i id count named
    refine (arguments_lead _ fun type _ => actionArgument_yields type).andThen
      fun {arguments middle} _ values => ?_
    by_cases plain : ((terms.catalog.returnType? id).getD .void).slots = 0
    · have commanded : command? terms.catalog instruction = some id := by
        simp [command?, named, plain]
      rw [commanded]
      intro sound after runs
      obtain ⟨call, called, begun, ended⟩ := runs.split
      obtain ⟨rfl, rfl⟩ := Prod.mk.inj (Except.ok.inj (begun.symm.trans (addNode_runs _ _)))
      rw [if_pos plain] at ended
      obtain ⟨_, rfl⟩ := Prod.mk.inj (Except.ok.inj (ended.symm.trans (emitNode_runs _ _)))
      exact .command .refl ⟨plain, _, arguments, values, by simp; rfl⟩
    · have silent : command? terms.catalog instruction = none := by
        simp [command?, named, plain]
      rw [silent]
      refine Goes.acts ((addNode_yields rfl ?_ ?_ ⟨rfl, rfl⟩).bind fun _ value => ?_)
      · exact values
      · simpa [Node.isCommand] using plain
      · rw [if_neg plain]
        exact (pushValue_goes _ value _).bind fun _ _ => .done trivial

end Invocations

end Recover
end NwScript
