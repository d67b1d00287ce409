import NwScript.Proofs.TidiedLabels

/-!
# Values of folded declarations

A cleanup lets a declaration take the value that the next statement assigns, if that value does not mention
the variable.  The test follows operands.  It does not enter the statements of a deferred argument, which
are no operands, and of members it sees those whose outermost aggregate the variable is.  In whatever tree,
a value that a declaration took mentions the variable nowhere else.
-/

namespace NwScript

theorem Node.eq_of_holding {node other : Node} {children : List NodeId}
    (same : other = node.holding children) (bare : other.body? = none) : node = other := by
  have none_owned : node.body? = none := by
    rw [same, Node.body?_mapBody] at bare
    exact Option.map_eq_none_iff.mp bare
  rw [same, Node.holding, Node.mapBody_eq_self none_owned]

namespace VarTable

variable {table : VarTable} {part whole : VarId}

/-- A variable is another one or a member of it, at any depth. -/
def IsPart (table : VarTable) : VarId → VarId → Prop :=
  Relation.ReflTransGen fun member aggregate => table.parent? member = some aggregate

theorem lt_of_parent? {member aggregate : VarId} (linked : table.parent? member = some aggregate) :
    member < table.size := by
  by_contra outside
  rw [parent?, get?, Array.getElem?_eq_none (Nat.not_lt.mp outside)] at linked
  cases linked

/-- The outermost aggregate of a part of a variable that is no member is the variable. -/
theorem IsPart.root_eq (is_part : table.IsPart part whole) (free : table.parent? whole = none) :
    table.root part = whole := by
  obtain ⟨steps, room, ends⟩ : ∃ steps, table.size + 1 = steps + 1 ∧
      table.rootFrom steps part = whole := by
    refine ScriptTree.found_of_chain (fun depth id =>
      ∃ steps, depth = steps + 1 ∧ table.rootFrom steps id = whole) ?_ ?_ lt_of_parent? is_part
    · exact fun depth => ⟨depth, rfl, rootFrom_eq_self free depth⟩
    · rintro _ member aggregate linked ⟨steps, rfl, ends⟩
      exact ⟨steps + 1, rfl, by rw [rootFrom, linked]; exact ends⟩
  rwa [VarTable.root, Nat.succ.inj room]

end VarTable

namespace ScriptTree

variable {tree before middle after : ScriptTree} {id : NodeId} {var : VarId}

/-- Evaluating a node evaluates another one: the operands of expressions lead there. -/
def Consults (tree : ScriptTree) : NodeId → NodeId → Prop :=
  Relation.ReflTransGen fun upper lower =>
    (tree.node upper).isExpression = true ∧ lower ∈ (tree.node upper).operands

/-- A node or something below it is a use of a variable or of a part of it. -/
def NamesPart (tree : ScriptTree) (id : NodeId) (var : VarId) : Prop :=
  ∃ lower used, tree.Reaches id lower ∧ tree.node lower = .reference used ∧ tree.vars.IsPart used var

/-- Some assignment to a variable as a whole assigns a value. -/
def IsAssigned (tree : ScriptTree) (var : VarId) (value : NodeId) : Prop :=
  ∃ assignment target, tree.node assignment = .assign target value ∧
    tree.node target = .reference var

/-- Evaluating a node uses neither a variable nor one whose outermost aggregate it is. -/
def Avoids (tree : ScriptTree) (id : NodeId) (var : VarId) : Prop :=
  ∀ {operand used}, tree.Consults id operand → tree.node operand = .reference used →
    used ≠ var ∧ tree.vars.root used ≠ var

section Mentions

/-- The test for mentions overlooks nothing that is evaluated. -/
theorem avoids_of_not_mentions (apart : tree.mentions id var = false) : tree.Avoids id var := by
  intro operand used consulted names
  by_contra involved
  have mentioned : (used = var || tree.vars.root used = var) = true := by
    rw [Bool.or_eq_true, decide_eq_true_eq, decide_eq_true_eq]
    by_contra neither
    exact involved (not_or.mp neither)
  suffices found : tree.mentions id var = true from Bool.false_ne_true (apart.symm.trans found)
  refine found_of_chain (fun depth id => tree.mentionsFrom var depth id = true) ?_ ?_ ?_ consulted
  · intro depth
    rw [mentionsFrom, names]
    exact mentioned
  · rintro depth upper lower ⟨_, used⟩ found
    have some_operand : (tree.node upper).operands.any (tree.mentionsFrom var depth) = true :=
      List.any_eq_true.mpr ⟨lower, used, found⟩
    rw [mentionsFrom]
    split
    · rename_i here
      rw [here] at used
      cases used
    · exact some_operand
  · exact fun edge => Below.lt (.inl edge.2)

/-- What is below a node is evaluated with it, or hangs from something evaluated: as a child statement,
or as an operand of something that is no expression. -/
theorem Reaches.consults_or {lower : NodeId} (reaches : tree.Reaches id lower) :
    tree.Consults id lower ∨ ∃ inner next, tree.Consults id inner ∧
      (next ∈ tree.children inner ∨ (tree.node inner).isExpression = false ∧ tree.Below inner next) ∧
        tree.Reaches next lower := by
  induction reaches with
  | refl => exact .inl .refl
  | @tail upper lower _ below induction =>
      rcases induction with consulted | ⟨inner, next, consulted, hangs, reaches⟩
      · rcases below with used | held
        · by_cases expression : (tree.node upper).isExpression = true
          · exact .inl (consulted.tail ⟨expression, used⟩)
          · exact .inr ⟨upper, lower, consulted,
              .inr ⟨by simpa using expression, .inl used⟩, .refl⟩
        · exact .inr ⟨upper, lower, consulted, .inl held, .refl⟩
      · exact .inr ⟨inner, next, consulted, hangs, reaches.tail below⟩

theorem Consults.reaches {operand : NodeId} (consulted : tree.Consults id operand) :
    tree.Reaches id operand :=
  Relation.ReflTransGen.mono (fun _ _ edge => .inl edge.2) _ _ consulted

theorem NamesPart.of_reaches {upper : NodeId} (reaches : tree.Reaches upper id)
    (names : tree.NamesPart id var) : tree.NamesPart upper var := by
  obtain ⟨lower, used, deeper, here, is_part⟩ := names
  exact ⟨lower, used, reaches.trans deeper, here, is_part⟩

theorem isClosure_of_children {child : NodeId} (held : child ∈ tree.children id)
    (expression : (tree.node id).isExpression = true) : (tree.node id).isClosure = true := by
  have owns := Node.owns_of_mem_statements held
  revert owns expression
  cases tree.node id <;> simp [Node.body?, Node.isExpression, Node.isClosure]

/-- A variable that evaluation avoids is named in the statements of a deferred argument, below a
statement in the place of an operand, or as a part of a variable that is a member itself. -/
theorem Avoids.namesPart_iff (avoids : tree.Avoids id var) :
    tree.NamesPart id var ↔ ∃ inner, tree.Consults id inner ∧
      ((tree.node inner).isClosure = true ∧
          (∃ statement ∈ tree.children inner, tree.NamesPart statement var) ∨
        (tree.node inner).isExpression = false ∧
          (∃ lower, tree.Below inner lower ∧ tree.NamesPart lower var) ∨
        ∃ used, tree.node inner = .reference used ∧ tree.vars.IsPart used var ∧ used ≠ var ∧
          (tree.vars.parent? var).isSome = true) := by
  constructor
  · rintro ⟨lower, used, reaches, here, is_part⟩
    rcases reaches.consults_or with consulted | ⟨inner, next, consulted, hangs, reaches⟩
    · obtain ⟨other, apart⟩ := avoids consulted here
      refine ⟨lower, consulted, .inr (.inr ⟨used, here, is_part, other, ?_⟩)⟩
      by_contra free
      exact apart (is_part.root_eq (by simpa using free))
    · have named : tree.NamesPart next var := ⟨lower, used, reaches, here, is_part⟩
      refine ⟨inner, consulted, ?_⟩
      by_cases expression : (tree.node inner).isExpression = true
      · have held := hangs.resolve_right fun plain =>
          Bool.false_ne_true (plain.1.symm.trans expression)
        exact .inl ⟨isClosure_of_children held expression, next, held, named⟩
      · exact .inr (.inl ⟨by simpa using expression, next, hangs.elim .inr And.right, named⟩)
  · rintro ⟨inner, consulted, ⟨_, statement, held, names⟩ | ⟨_, lower, below, names⟩ |
      ⟨used, here, is_part, _, _⟩⟩
    · exact names.of_reaches (consulted.reaches.tail (.inr held))
    · exact names.of_reaches (consulted.reaches.tail below)
    · exact ⟨inner, used, consulted.reaches, here, is_part⟩

end Mentions

section Folding

/-- Expressions were expressions before, with the same operands. -/
structure KeepsExpressions (before after : ScriptTree) : Prop where
  /-- At most the statements of deferred arguments change. -/
  node : ∀ {id : NodeId}, (after.node id).isExpression = true →
    ∃ children, after.node id = (before.node id).holding children
  /-- Aggregates and members stay. -/
  vars : before.vars.Alike after.vars

namespace KeepsExpressions

theorem trans (first : KeepsExpressions before middle) (second : KeepsExpressions middle after) :
    KeepsExpressions before after := by
  refine ⟨fun {id} expression => ?_, first.vars.trans second.vars⟩
  obtain ⟨later, here⟩ := second.node expression
  rw [here, Node.isExpression_mapBody] at expression
  obtain ⟨earlier, there⟩ := first.node expression
  exact ⟨later, by rw [here, there, Node.holding_holding]⟩

/-- A node that becomes no expression may change. -/
theorem of_update {changed : NodeId} {node : Node}
    (nodes : after.node = Function.update before.node changed node)
    (plain : node.isExpression = false) (vars : before.vars.Alike after.vars) :
    KeepsExpressions before after := by
  refine ⟨fun {id} expression => ?_, vars⟩
  rw [nodes, Function.update_apply] at expression ⊢
  split at expression
  · cases plain.symm.trans expression
  · rename_i other
    exact ⟨(before.node id).statements, by rw [if_neg other, Node.holding_statements]⟩

variable (keeps : KeepsExpressions before after)

include keeps

/-- Expressions without statements are as they were. -/
theorem node_eq {node : Node} (here : after.node id = node) (expression : node.isExpression = true)
    (bare : node.body? = none) : before.node id = node := by
  obtain ⟨children, same⟩ := keeps.node (by rwa [here])
  exact Node.eq_of_holding (here.symm.trans same) bare

theorem consults {operand : NodeId} (consulted : after.Consults id operand) :
    before.Consults id operand := by
  refine Relation.ReflTransGen.mono (fun upper lower edge => ?_) _ _ consulted
  obtain ⟨expression, used⟩ := edge
  obtain ⟨children, same⟩ := keeps.node expression
  rw [same] at expression used
  exact ⟨by rwa [Node.isExpression_mapBody] at expression, by rwa [Node.operands_mapBody] at used⟩

theorem avoids (avoids : before.Avoids id var) : after.Avoids id var := by
  intro operand used consulted names
  rw [keeps.vars.root]
  exact avoids (keeps.consults consulted) (keeps.node_eq names rfl rfl)

theorem isAssigned {value : NodeId} (assigned : after.IsAssigned var value) :
    before.IsAssigned var value := by
  obtain ⟨assignment, target, assigns, names⟩ := assigned
  exact ⟨assignment, target, keeps.node_eq assigns rfl rfl, keeps.node_eq names rfl rfl⟩

end KeepsExpressions

/-- Declarations have the values that they had, or values that are assigned to their variables and avoid
them. -/
structure TakesValues (before after : ScriptTree) : Prop extends KeepsExpressions before after where
  /-- Where the value of a declaration comes from. -/
  value : ∀ {id : NodeId} {var : VarId} {value : NodeId} {settled : Bool},
    after.node id = .declaration var (some value) settled →
      (∃ pending, before.node id = .declaration var (some value) pending) ∨
        before.IsAssigned var value ∧ after.Avoids value var

namespace TakesValues

theorem trans (first : TakesValues before middle) (second : TakesValues middle after) :
    TakesValues before after := by
  refine ⟨first.toKeepsExpressions.trans second.toKeepsExpressions, fun {id var value settled} here => ?_⟩
  rcases second.value here with ⟨_, there⟩ | ⟨assigned, avoids⟩
  · rcases first.value there with kept | ⟨assigned, avoids⟩
    · exact .inl kept
    · exact .inr ⟨assigned, second.avoids avoids⟩
  · exact .inr ⟨first.isAssigned assigned, avoids⟩

theorem of_rearranges {extra : List NodeId} (rearranges : Rearranges extra before after) :
    TakesValues before after := by
  refine ⟨⟨fun _ => rearranges.node _, rearranges.vars ▸ .refl _⟩, fun {id var value settled} here => ?_⟩
  obtain ⟨children, same⟩ := rearranges.node id
  exact .inl ⟨settled, Node.eq_of_holding (here.symm.trans same) rfl⟩

theorem refl (tree : ScriptTree) : TakesValues tree tree :=
  of_rearranges (.refl tree [])

/-- A node becomes no expression, and no declaration with another value but such a one. -/
theorem of_update {changed : NodeId} {node : Node}
    (nodes : after.node = Function.update before.node changed node)
    (plain : node.isExpression = false) (vars : before.vars.Alike after.vars)
    (valued : ∀ {var value settled}, node = .declaration var (some value) settled →
      (∃ pending, before.node changed = .declaration var (some value) pending) ∨
        before.IsAssigned var value ∧ before.Avoids value var) : TakesValues before after := by
  have keeps := KeepsExpressions.of_update nodes plain vars
  refine ⟨keeps, fun {id var value settled} here => ?_⟩
  rw [nodes, Function.update_apply] at here
  split at here
  · rename_i same
    rw [same]
    exact (valued here).imp_right fun taken => ⟨taken.1, keeps.avoids taken.2⟩
  · exact .inl ⟨settled, here⟩

/-- A node is added that is neither an expression nor has a value. -/
theorem add (tree : ScriptTree) {node : Node} (plain : node.isExpression = false)
    (valueless : ∀ var value settled, node ≠ .declaration var (some value) settled) :
    TakesValues tree (tree.add node).1 := by
  have alike : tree.vars.Alike (tree.add node).1.vars := by
    rw [vars_add]
    exact .refl _
  exact of_update (node_add tree node) plain alike fun same => absurd same (valueless _ _ _)

/-- A declaration changes. -/
theorem modify {declaration : NodeId} {init changed : Option NodeId} {pending settled : Bool}
    (declares : tree.node declaration = .declaration var init pending)
    (valued : ∀ {value}, changed = some value →
      init = some value ∨ tree.IsAssigned var value ∧ tree.Avoids value var) :
    TakesValues tree (tree.modify declaration fun _ => .declaration var changed settled) := by
  have inside : declaration < tree.size := lt_of_node declares nofun
  refine of_update (node_modify inside fun _ => .declaration var changed settled) rfl (.refl _) ?_
  rintro _ value _ ⟨⟩
  refine (valued rfl).imp_left fun same => ⟨pending, ?_⟩
  rw [declares, same]

variable {host : NodeId}

theorem of_absorb? (applied : before.absorb? host = some after) : TakesValues before after := by
  obtain ⟨_, rearranges⟩ := exists_rearranges_of_absorb? applied
  exact of_rearranges rearranges

theorem of_promote? {child : NodeId} (applied : promote? host before child = some after) :
    TakesValues before after := by
  obtain ⟨_, _, first, last⟩ := exists_rearranges_of_promote? applied
  exact ((of_rearranges first).trans (add _ rfl fun _ _ _ same => by cases same)).trans (of_rearranges last)

theorem of_settle? {child : NodeId} (applied : before.settle? child = some after) :
    TakesValues before after := by
  unfold settle? at applied
  split at applied
  · rename_i declares
    cases applied
    exact modify declares .inl
  · cases applied

theorem of_merge? {index : Nat} (applied : merge? host before index = some after) :
    TakesValues before after := by
  obtain ⟨_, run, _, aggregate, _, _, _, _, rfl⟩ := exists_run_of_merge? applied
  have replaced : TakesValues before
      ((before.add (.declaration aggregate none false)).1.replaceAll before.size run) :=
    (add before rfl fun _ _ _ same => by cases same).trans (of_rearranges (.replaceAll _ before.size run))
  obtain ⟨vars, same, alike⟩ := exists_declareWhole_eq
    ((before.add (.declaration aggregate none false)).1.replaceAll before.size run) aggregate before.size
  rw [same]
  refine ⟨⟨replaced.node, replaced.vars.trans alike⟩, fun here => ?_⟩
  refine (replaced.value here).imp_right fun taken => ⟨taken.1, fun consulted names => ?_⟩
  rw [alike.root]
  exact taken.2 consulted names

/-- The value of the next statement moves into the declaration. -/
theorem of_foldInitializer? {index : Nat} (applied : foldInitializer? host before index = some after) :
    TakesValues before after := by
  obtain ⟨_, declaration, next, _, var, pending, expression, target, value, _, _, folds, rfl⟩ :=
    exists_folds_of_foldInitializer? applied
  have taken : TakesValues before
      (before.modify declaration fun _ => .declaration var (some value) pending) :=
    modify folds.declares fun {taken} same => by
      cases same
      exact .inr ⟨⟨expression, target, folds.assigns, folds.names⟩,
        avoids_of_not_mentions folds.apart⟩
  have linked : TakesValues before ((before.modify declaration fun _ =>
      .declaration var (some value) pending).setParent value (some declaration)) :=
    ⟨⟨taken.node, taken.vars⟩, taken.value⟩
  exact linked.trans (of_rearranges (.detach _ next))

end TakesValues

/-- In whatever tree, a cleanup changes declarations only so that they take such values. -/
theorem takesValues_cleanup (tree : ScriptTree) : TakesValues tree tree.cleanup.1 :=
  cleanup_induction (fun kept applied => kept.trans (.of_absorb? applied))
    (fun kept applied => kept.trans (.of_promote? applied))
    (fun kept applied => kept.trans (.of_settle? applied))
    (fun kept applied => kept.trans (.of_merge? applied))
    (fun kept applied => kept.trans (.of_foldInitializer? applied)) (.refl tree)

/-- A declaration that has a value only behind the cleanup took it from an assignment to the variable.
Evaluating the value does not use the variable, nor any part of it unless the variable is a member itself.
So the value names the variable or a part of it exactly if the statements of a deferred argument do, or
something below a statement that stands in the place of an operand, or a part of a variable that is a
member. -/
theorem cleanup_value_namesPart_iff {id : NodeId} {var : VarId} {value : NodeId} {settled : Bool}
    (new : ∀ pending, tree.node id ≠ .declaration var (some value) pending)
    (valued : tree.cleanup.1.node id = .declaration var (some value) settled) :
    tree.IsAssigned var value ∧
      (∀ operand used, tree.cleanup.1.Consults value operand →
        tree.cleanup.1.node operand = .reference used → used ≠ var ∧
          (tree.cleanup.1.vars.IsPart used var → (tree.cleanup.1.vars.parent? var).isSome = true)) ∧
      (tree.cleanup.1.NamesPart value var ↔ ∃ inner, tree.cleanup.1.Consults value inner ∧
        ((tree.cleanup.1.node inner).isClosure = true ∧
            (∃ statement ∈ tree.cleanup.1.children inner, tree.cleanup.1.NamesPart statement var) ∨
          (tree.cleanup.1.node inner).isExpression = false ∧
            (∃ lower, tree.cleanup.1.Below inner lower ∧ tree.cleanup.1.NamesPart lower var) ∨
          ∃ used, tree.cleanup.1.node inner = .reference used ∧
            tree.cleanup.1.vars.IsPart used var ∧ used ≠ var ∧
              (tree.cleanup.1.vars.parent? var).isSome = true)) := by
  rcases (takesValues_cleanup tree).value valued with ⟨pending, old⟩ | ⟨assigned, avoids⟩
  · exact absurd old (new pending)
  · refine ⟨assigned, fun operand used consulted names => ?_, avoids.namesPart_iff⟩
    obtain ⟨other, apart⟩ := avoids consulted names
    refine ⟨other, fun is_part => ?_⟩
    by_contra free
    exact apart (is_part.root_eq (by simpa using free))

/-- A variable is declared and then assigned the result of a call, which defers a call that uses it. -/
def deferring : ScriptTree :=
  sample
    [.block { children := [1, 9], start := 0, limit := 40 }, .declaration 0 none false, .reference 0,
      .action 1 "PrintInteger" [2], .statement 3, .closure { children := [4], start := 10, limit := 20 },
      .action 2 "Deferred" [5], .reference 0, .assign 7 6, .statement 8]
    [none, some 0, some 3, some 4, some 5, some 6, some 8, some 8, some 9, some 0]
    [{ kind := .localVar, type := .int }]

/-- The declaration takes the result of the call, whose evaluation does not use the variable. -/
theorem cleanup_value_namesPart_iff_deferring : deferring.IsAssigned 0 6 ∧
    ¬deferring.cleanup.1.Consults 6 2 := by
  obtain ⟨assigned, unused, _⟩ := @cleanup_value_namesPart_iff deferring 1 0 6 false (fun _ => nofun)
    (by decide +kernel)
  exact ⟨assigned, fun consulted => (unused 2 0 consulted (by decide +kernel)).1 rfl⟩

/-- All the same the deferred call names the variable, so the declaration has a value that does. -/
theorem cleanup_value_names_deferring : deferring.node 1 = .declaration 0 none false ∧
    deferring.cleanup.1.node 1 = .declaration 0 (some 6) false ∧
      deferring.cleanup.1.NamesPart 6 0 := by
  have edge : ∀ upper lower : NodeId, lower ∈ (deferring.cleanup.1.node upper).operands ++
      deferring.cleanup.1.children upper → deferring.cleanup.1.Below upper lower :=
    fun _ _ listed => List.mem_append.mp listed
  have reaches : deferring.cleanup.1.Reaches 6 2 :=
    .head (edge 6 5 (by decide +kernel)) (.head (edge 5 4 (by decide +kernel))
      (.head (edge 4 3 (by decide +kernel)) (.single (edge 3 2 (by decide +kernel)))))
  exact ⟨rfl, by decide +kernel, 2, 0, reaches, by decide +kernel, .refl⟩

end Folding
end ScriptTree
end NwScript
