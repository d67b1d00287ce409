import NwScript.Proofs.SoundRecovery

/-!
# Moves of expressions

Values taken off the stack, copies, operators and calls, as moves of a recovery: what is taken is a
value, and what is pushed is one again.
-/

namespace NwScript

namespace SlotStack

variable {α : Type} {stack rest : SlotStack α} {entry : α}

theorem mem_slots_iff : entry ∈ stack.slots ↔ entry ∈ stack.toList :=
  Array.mem_toList_iff.symm

theorem mem_of_mem_truncate {height : Nat} (listed : entry ∈ (stack.truncate height).slots) :
    entry ∈ stack.slots := by
  rw [mem_slots_iff, toList_truncate] at listed
  exact mem_slots_iff.mpr (List.mem_of_mem_take listed)

theorem mem_of_mem_drop (listed : entry ∈ stack.drop.slots) : entry ∈ stack.slots := by
  rw [mem_slots_iff, toList_drop] at listed
  exact mem_slots_iff.mpr (List.mem_of_mem_dropLast listed)

theorem mem_pushAll_iff {entries : List α} :
    entry ∈ (stack.pushAll entries).slots ↔ entry ∈ stack.slots ∨ entry ∈ entries := by
  rw [mem_slots_iff, toList_pushAll, List.mem_append, mem_slots_iff]

theorem mem_of_mem_slice {first limit : Nat} (listed : entry ∈ stack.slice first limit) :
    entry ∈ stack.slots := by
  rw [slice, Array.toList_extract] at listed
  exact mem_slots_iff.mpr (List.mem_of_mem_drop (List.mem_of_mem_take listed))

theorem mem_of_popMany? {count : Nat} {entries : List α}
    (popped : stack.popMany? count = some (entries, rest)) (listed : entry ∈ entries) :
    entry ∈ stack.slots := by
  unfold popMany? at popped
  split at popped
  · obtain ⟨rfl, rfl⟩ := Prod.mk.inj (Option.some.inj popped)
    exact mem_of_mem_slice listed
  · cases popped

/-- What is popped was on the stack, and so was everything below it. -/
theorem mem_of_pop? {top : α} (popped : stack.pop? = some (top, rest)) :
    top ∈ stack.slots ∧ ∀ entry ∈ rest.slots, entry ∈ stack.slots := by
  obtain ⟨found, there, same⟩ := Option.map_eq_some_iff.mp popped
  obtain ⟨rfl, rfl⟩ := Prod.mk.inj same
  refine ⟨Array.mem_of_back? there, fun entry listed => ?_⟩
  exact mem_of_mem_drop listed

end SlotStack

namespace Node

theorem outline_settled (node : Node) : node.settled.outline = node.outline := by
  cases node <;> rfl

theorem statements_settled (node : Node) : node.settled.statements = node.statements := by
  cases node <;> rfl

theorem operands_settled (node : Node) : node.settled.operands = node.operands := by
  cases node <;> rfl

end Node

namespace Recover

open Recovery

variable {terms : Terms} {before : Recovery}

section State

/-- Fewer slots are left. -/
theorem lessStack_goes {change : SlotStack StackEntry → SlotStack StackEntry}
    (fewer : ∀ entry ∈ (change before.stack).slots, entry ∈ before.stack.slots) :
    Goes terms (onStack change) before :=
  .last (onStack_runs _ _) (.slots fun sound entry listed => sound.stack entry (fewer entry listed))
    trivial

theorem push_goes (entry : StackEntry)
    (sound : before.IsSound terms.catalog → before.tree.IsEntry terms.catalog entry) :
    Goes terms (push entry) before := by
  refine .last (push_runs _ _) (.slots fun all other listed => ?_) trivial
  rcases Array.mem_push.mp listed with old | rfl
  · exact all.stack other old
  · exact sound all

/-- A variable is used up or stands for another value. -/
theorem onVar_goes {var : VarId} {change : Variable → Variable}
    (kept : ∀ entry, ∃ value consumed, change entry = { entry with value, consumed } ∧
      ∀ found, value = some found → entry.value = some found ∨
        before.tree.IsValue terms.catalog found) : Goes terms (onVar var change) before :=
  .last (onVar_runs _ _ _) (.edit (.vars (.revalue kept))) trivial

theorem useUp_goes (var : VarId) :
    Goes terms (onVar var fun entry => { entry with consumed := true }) before :=
  onVar_goes fun entry => ⟨entry.value, true, rfl, fun _ => .inl⟩

/-- A variable of its own is added, which may then be on the stack. -/
theorem addVar_leads {entry : Variable}
    (values : ∀ value, entry.value = some value → before.tree.IsValue terms.catalog value)
    (undeclared : entry.declaration = none) (free : entry.parent = none)
    (single : entry.members = []) :
    Leads terms (addVar entry) before fun var after =>
      after.tree.IsEntry terms.catalog (.var var) ∧ after.tree.vars.kind var = entry.kind := by
  refine .last (addVar_runs _ _) (.edit (.vars (.add values undeclared free single))) ⟨⟨?_, ?_⟩, ?_⟩
  · simp
  · rw [VarTable.members_of_get? (VarTable.get?_add_self _ _), single]
  · rw [VarTable.kind, VarTable.get?_add_self]

theorem pushValue_goes {value : NodeId} (type : Ty) (sound : before.tree.IsValue terms.catalog value)
    (width : Nat) : Goes terms (pushValue type value width) before := by
  unfold pushValue
  refine (addVar_leads (fun found same => ?_) rfl rfl rfl).bind fun {var middle} plays entry => ?_
  · cases same
    exact sound
  · refine .via (onStack_runs _ _) (.slots fun all other listed => ?_) (.done trivial)
    rcases SlotStack.mem_pushAll_iff.mp listed with old | new
    · exact all.stack other old
    · rw [List.eq_of_mem_replicate new]
      exact entry.1

end State

section Values

/-- A declaration does not keep its call result to itself unless it declares. -/
theorem keepCall_edits (tree : ScriptTree) (var : VarId) :
    tree.Edits terms.catalog (keepCall tree var) := by
  unfold keepCall
  split
  · rename_i declaration _
    exact .single (.fill (Node.outline_settled _) (Node.statements_settled _) fun operand used =>
      .inl (Node.operands_settled _ ▸ used))
  · exact .refl

theorem commit_goes (var : VarId) : Goes terms (commit var) before :=
  .last (onTree_runs _ _) (.edits ((keepCall_edits _ _).trans (keepCall_edits _ _))) trivial

/-- A call result that waits in a declaration is a value there. -/
theorem pendingCall?_eq_some {var : VarId} {declaration call : NodeId}
    (found : before.pendingCall? var = some (declaration, call)) :
    before.tree.vars.declaration? var = some declaration ∧
      call ∈ (before.tree.node declaration).operands := by
  obtain ⟨known, declares, here⟩ := Option.bind_eq_some_iff.mp found
  split at here
  · rename_i var init node
    obtain ⟨rfl, rfl⟩ := Prod.mk.inj (Option.some.inj here)
    exact ⟨declares, by rw [node]; exact List.mem_singleton_self _⟩
  · cases here

theorem pendingCall_isValue (sound : before.IsSound terms.catalog) {var : VarId}
    {declaration call : NodeId} (found : before.pendingCall? var = some (declaration, call)) :
    before.tree.IsDeclaration declaration ∧ before.tree.IsValue terms.catalog call := by
  obtain ⟨declares, used⟩ := pendingCall?_eq_some found
  have known := sound.tree.declared declares
  refine ⟨known, (sound.tree.operands used).resolve_right ?_⟩
  obtain ⟨_, var, init, pending, here⟩ := known
  rintro ⟨_, _, states⟩
  cases here.symm.trans states

theorem discard_goes {var : VarId} (declared : before.tree.vars.declaration? var ≠ none) :
    Goes terms (discard var) before := by
  refine .last (onTree_runs _ _) ?_ trivial
  rw [ScriptTree.foldl_modifyVar]
  exact .edit (.vars (.discard declared))

theorem useNamed_yields (var : VarId) : Yields terms (useNamed var) before := by
  refine .sound fun sound => .reads ?_
  split
  · rename_i declaration call found
    obtain ⟨declares, value⟩ := pendingCall_isValue sound found
    refine .via (onTree_runs _ _) (.edit (.detach (.inl declares))) ?_
    refine (discard_goes ?_).bind fun plays _ => .done (plays.isValue ?_)
    · simp [(pendingCall?_eq_some found).1]
    · exact (ScriptTree.Rearranges.detach _ _).isExtension.isValue value
  · exact (commit_goes var).bind fun _ _ => reference_yields var

theorem useTemporary_yields (var : VarId) (live : Bool) :
    Yields terms (useTemporary var live) before := by
  refine .sound fun sound => .reads ?_
  split
  · rename_i value found
    obtain ⟨entry, known, valued⟩ := Option.bind_eq_some_iff.mp found
    have value := sound.tree.values known valued
    split
    · exact duplicate_yields fun _ => value
    · exact (useUp_goes var).bind fun plays _ => .done (plays.isValue value)
  · exact unknownOperand_yields

theorem takeEntry_yields {entry : StackEntry} (width : Nat)
    (sound : before.IsSound terms.catalog → before.tree.IsEntry terms.catalog entry) :
    Yields terms (takeEntry entry width) before := by
  refine .sound fun all => ?_
  unfold takeEntry
  refine (lessStack_goes fun _ => SlotStack.mem_of_mem_truncate).bind fun plays _ => .reads ?_
  have held := plays.isEntry (sound all)
  dsimp only
  split
  · split
    · exact duplicate_yields fun _ => held
    · exact .done held
  · split
    · exact useTemporary_yields _ _
    · exact useNamed_yields _

theorem takeSlot_yields : Yields terms takeSlot before := by
  refine .reads ?_
  split
  · rename_i entry peeked
    exact takeEntry_yields 1 fun sound => sound.stack entry (before.stack.mem_of_peek? peeked)
  · exact unknownOperand_yields

/-- The variables of some entries are among these. -/
theorem mem_of_mapM_entryVar? {entries : List StackEntry} {vars : List VarId}
    (found : entries.mapM entryVar? = some vars) {var : VarId} (listed : var ∈ vars) :
    .var var ∈ entries := by
  induction entries generalizing vars with
  | nil =>
      obtain rfl := Option.some.inj found
      exact absurd listed List.not_mem_nil
  | cons entry entries induction =>
      rw [List.mapM_cons] at found
      obtain ⟨first, here, found⟩ := Option.bind_eq_some_iff.mp found
      obtain ⟨others, there, same⟩ := Option.bind_eq_some_iff.mp found
      obtain rfl := Option.some.inj same
      rcases List.mem_cons.mp listed with rfl | later
      · cases entry with
        | literal node => cases here
        | var id =>
            obtain rfl := Option.some.inj here
            exact List.mem_cons_self
      · exact List.mem_cons_of_mem _ (induction there later)

theorem mem_of_looseVars? {entries : List StackEntry} {vars : List VarId}
    (found : before.looseVars? entries = some vars) {var : VarId} (listed : var ∈ vars) :
    .var var ∈ entries := by
  obtain ⟨all, mapped, found⟩ := Option.bind_eq_some_iff.mp found
  obtain ⟨first, _, found⟩ := Option.bind_eq_some_iff.mp found
  dsimp only at found
  split at found
  · obtain rfl := Option.some.inj found
    exact mem_of_mapM_entryVar? mapped listed
  · cases found

theorem group_runs (members : List VarId) (recovery : Recovery) :
    Runs (group members) recovery (recovery.tree.vars.group members).2
      { recovery with tree := { recovery.tree with vars := (recovery.tree.vars.group members).1 } } :=
  rfl

/-- Variables that may be on the stack may be grouped. -/
theorem group_goes {members : List VarId} (sound : before.IsSound terms.catalog →
    ∀ member ∈ members, before.tree.IsEntry terms.catalog (.var member)) :
    Goes terms (group members) before :=
  .sound fun all => .last (group_runs members before)
    (.edits (before.tree.group_edits fun member listed => (sound all member listed).2)) trivial

variable {entries : List StackEntry}

theorem groupLoose_goes (sound : before.IsSound terms.catalog →
    ∀ entry ∈ entries, before.tree.IsEntry terms.catalog entry) :
    Goes terms (groupLoose entries) before := by
  refine .reads ?_
  split
  · rename_i vars found
    split
    · exact .fail _
    · exact group_goes fun all var listed => sound all _ (mem_of_looseVars? found listed)
  · exact .done trivial

theorem takeComposite_yields (sound : before.IsSound terms.catalog →
    ∀ entry ∈ entries, before.tree.IsEntry terms.catalog entry) :
    Yields terms (takeComposite entries) before := by
  refine .reads ?_
  dsimp only
  split
  · rename_i aggregate _
    exact (lessStack_goes fun _ => SlotStack.mem_of_mem_truncate).bind fun _ _ =>
      useNamed_yields aggregate
  · split
    · refine takeSlot_yields.bind fun _ last => takeSlot_yields.bind fun second middle =>
        takeSlot_yields.bind fun third first => addNode_yields rfl ?_ rfl ⟨rfl, rfl⟩
      have last := third.isValue (second.isValue last)
      have middle := third.isValue middle
      simp [Node.operands, *]
    · refine (groupLoose_goes sound).bind fun {grouped _} _ _ => ?_
      cases grouped with
      | some aggregate =>
          exact (lessStack_goes fun _ => SlotStack.mem_of_mem_truncate).bind fun _ _ =>
            useNamed_yields aggregate
      | none => exact .fail _

theorem takeValue_yields (width : Nat) : Yields terms (takeValue width) before := by
  refine .reads ?_
  split
  · rename_i first rest _ popped
    have listed : before.IsSound terms.catalog →
        ∀ entry ∈ first :: rest, before.tree.IsEntry terms.catalog entry :=
      fun sound entry here => sound.stack entry (SlotStack.mem_of_popMany? popped here)
    split
    · exact takeEntry_yields width fun sound => listed sound first List.mem_cons_self
    · exact takeComposite_yields listed
  · exact unknownOperand_yields

theorem peekExpression_yields {entry : StackEntry}
    (sound : before.IsSound terms.catalog → before.tree.IsEntry terms.catalog entry) :
    Yields terms (peekExpression entry) before := by
  refine .reads ?_
  split
  · exact duplicate_yields sound
  · rename_i var
    split
    · exact useTemporary_yields var true
    · exact (commit_goes var).bind fun _ _ => reference_yields var

theorem consume_goes (entry : StackEntry) : Goes terms (consume entry) before := by
  cases entry with
  | literal node => exact .done trivial
  | var var =>
      refine onVar_goes fun entry => ?_
      split
      · exact ⟨entry.value, true, rfl, fun _ => .inl⟩
      · exact ⟨entry.value, entry.consumed, rfl, fun _ => .inl⟩

theorem namedValue_goes (sound : before.IsSound terms.catalog →
    ∀ entry ∈ entries, before.tree.IsEntry terms.catalog entry) :
    Goes terms (namedValue entries) before := by
  refine .reads ?_
  split
  · exact .done trivial
  · exact .done trivial
  · split
    · exact .done trivial
    · exact groupLoose_goes sound

end Values

section Statements

variable (node : Node)

/-- A statement that has just been added stands nowhere. -/
theorem isUnplaced_add (sound : before.IsSound terms.catalog) (statement : node.isExpression = false)
    (empty : node.statements = []) :
    (before.tree.add node).1.IsUnplaced before.tree.size := by
  have deep : before.tree.size ≠ ScriptTree.root :=
    Nat.ne_of_gt (ScriptTree.lt_of_body? sound.tree.rooted)
  refine ⟨by simp, by rwa [ScriptTree.node_add_self], deep, fun holder held => ?_⟩
  rw [ScriptTree.children_eq, ScriptTree.node_add, Function.update_apply] at held
  split at held
  · rw [empty] at held
    exact absurd held List.not_mem_nil
  · exact absurd (sound.tree.children held).1 (Nat.lt_irrefl _)

theorem current_ne_size (sound : before.IsSound terms.catalog) : before.current ≠ before.tree.size :=
  Nat.ne_of_lt (ScriptTree.lt_of_body? sound.current)

/-- A statement of values is added. -/
theorem addStatement_edit (statement : node.isExpression = false) (empty : node.statements = [])
    (values : ∀ operand ∈ node.operands, before.tree.IsValue terms.catalog operand) :
    before.tree.Edit terms.catalog (before.tree.add node).1 := by
  refine .add values ?_ (.inl ⟨empty, ?_⟩)
  all_goals cases node <;> first | rfl | cases statement

theorem emitNode_goes (statement : node.isExpression = false) (empty : node.statements = [])
    (values : ∀ operand ∈ node.operands, before.tree.IsValue terms.catalog operand) :
    Goes terms (emitNode node) before :=
  .sound fun sound => .via (addNode_runs _ _) (.edit (addStatement_edit node statement empty values))
    (.last (emit_runs _ _)
      (.move .refl (.emit (isUnplaced_add node sound statement empty) (current_ne_size sound))) trivial)

omit node in
/-- A node that owns statements is attached to the innermost open node and opened. -/
theorem emitEnter_goes {id : NodeId} (unplaced : before.tree.IsUnplaced id)
    (different : before.current ≠ id) (owns : (before.tree.node id).body?.isSome) :
    Goes terms (emit id >>= fun _ => enter id) before := by
  refine .sound fun sound => .via (emit_runs _ _) (.move .refl (.emit unplaced different)) ?_
  have nodes := ScriptTree.node_append_eq sound.current id
  refine .last (Runs.changes _ _) (.move .refl (.enter ?_ ?_)) trivial
  · show id ∈ (before.tree.append before.current id).children before.current
    rw [ScriptTree.children_eq, nodes, Function.update_self,
      Node.statements_holding sound.current]
    exact List.mem_append_right _ (List.mem_singleton_self _)
  · show ((before.tree.append before.current id).node id).body?.isSome
    rw [nodes, Function.update_of_ne (Ne.symm different)]
    exact owns

/-- A new node that owns statements is attached to the innermost open node and opened. -/
theorem openNode_goes (owns : node.body?.isSome) (statement : node.isExpression = false)
    (empty : node.statements = [])
    (values : ∀ operand ∈ node.operands, before.tree.IsValue terms.catalog operand) :
    Goes terms (openNode node) before := by
  refine .sound fun sound => .via (addNode_runs _ _)
    (.edit (addStatement_edit node statement empty values)) ?_
  have there : ((before.tree.add node).1.node before.tree.size).body?.isSome := by
    rw [ScriptTree.node_add_self]
    exact owns
  have opened : Goes terms (emit before.tree.size >>= fun _ => enter before.tree.size)
      { before with tree := (before.tree.add node).1 } :=
    emitEnter_goes (isUnplaced_add node sound statement empty) (current_ne_size sound) there
  rw [← bind_assoc]
  exact opened.bind fun _ _ => .done trivial

end Statements

end Recover
end NwScript
