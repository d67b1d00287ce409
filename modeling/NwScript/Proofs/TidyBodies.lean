import NwScript.Proofs.CleanupSteps

/-!
# Tidy bodies

A body is tidy when no rule of the cleanup applies to it.  Steps at another body leave it tidy: they
change none of its statements, and no value stops mentioning a variable.
-/

namespace NwScript

namespace Node

/-- Other child statements do not make a node of those that own none. -/
theorem eq_of_holding_eq {node changed : Node} {children : List NodeId}
    (same : node.holding children = changed) (bare : changed.body? = none) : node = changed := by
  have unowned : node.body? = none := by
    rw [← same, body?_mapBody] at bare
    simpa using bare
  exact (mapBody_eq_self unowned _).symm.trans same

end Node

namespace ScriptTree

variable {tree before after : ScriptTree} {body host new : NodeId}

/-- A run of member declarations starts at an index of a body. -/
def MergesAt (tree : ScriptTree) (body : NodeId) (index : Nat) : Prop :=
  ∃ left run right aggregate, left.length = index ∧ tree.children body = left ++ run ++ right ∧
    tree.vars.members aggregate ≠ [] ∧ tree.IsRun aggregate run

/-- A declaration and the assignment of its value start at an index of a body. -/
def FoldsAt (tree : ScriptTree) (body : NodeId) (index : Nat) : Prop :=
  ∃ left declaration next right var pending expression target value, left.length = index ∧
    tree.children body = left ++ declaration :: next :: right ∧
    tree.Folds declaration next var pending expression target value

/-- A body does not consist of one block. -/
def IsFlat (tree : ScriptTree) (body : NodeId) : Prop :=
  ∀ inner, tree.children body = [inner] → (tree.node inner).isBlock = false

/-- A statement is an expression that links to its body. -/
def IsLoose (tree : ScriptTree) (body child : NodeId) : Prop :=
  (tree.node child).isExpression ∧ tree.parent? child = some body

/-- A statement declares a variable with a call result that nothing has claimed. -/
def IsPending (tree : ScriptTree) (child : NodeId) : Prop :=
  ∃ var init, tree.node child = .declaration var init true

/-- No rule applies to a body. -/
structure IsTidy (tree : ScriptTree) (body : NodeId) : Prop where
  /-- It does not consist of a block. -/
  flat : tree.IsFlat body
  /-- Its expressions belong to other nodes. -/
  promoted : ∀ child ∈ tree.children body, ¬tree.IsLoose body child
  /-- Its declarations are settled. -/
  settled : ∀ child ∈ tree.children body, ¬tree.IsPending child
  /-- It does not declare all members of an aggregate one by one. -/
  merged : ∀ index, ¬tree.MergesAt body index
  /-- It does not declare a variable right before it assigns the value. -/
  folded : ∀ index, ¬tree.FoldsAt body index

section Refusals

theorem absorb?_eq_none_iff : tree.absorb? body = none ↔ tree.IsFlat body := by
  unfold absorb? IsFlat
  split
  · rename_i inner single
    simp [single]
  · rename_i several
    exact ⟨fun _ inner single => absurd single (several inner), fun _ => rfl⟩

theorem promote?_eq_none_iff (placed : tree.IsPlaced (some body)) {child : NodeId}
    (held : child ∈ tree.children body) :
    promote? body tree child = none ↔ ¬tree.IsLoose body child := by
  constructor
  · rintro refused ⟨expression, own⟩
    obtain ⟨left, right, split, first, _⟩ := placed.exists_split held
    have found := detach_snd own split first
    generalize taken : tree.detach child = result at found
    obtain ⟨without, index⟩ := result
    subst found
    simp [promote?, expression, taken] at refused
  · intro tight
    unfold promote?
    split
    · rename_i expression
      rw [detach, placed.slot?_eq_none held fun own => tight ⟨expression, own⟩]
    · rfl

theorem settle?_eq_none_iff {child : NodeId} :
    tree.settle? child = none ↔ ¬tree.IsPending child := by
  unfold settle? IsPending
  split
  · rename_i var init here
    simp [here]
  · rename_i other
    exact ⟨fun _ ⟨var, init, here⟩ => other var init here, fun _ => rfl⟩

theorem merge?_eq_none_iff {index : Nat} :
    merge? body tree index = none ↔ ¬tree.MergesAt body index := by
  constructor
  · rintro refused ⟨left, run, right, aggregate, rfl, split, some_member, is_run⟩
    simpa [refused] using merge?_isSome split some_member is_run
  · intro apart
    rw [← Option.not_isSome_iff_eq_none]
    intro applied
    obtain ⟨changed, applied⟩ := Option.isSome_iff_exists.mp applied
    obtain ⟨left, run, right, aggregate, length, split, some_member, is_run, _⟩ :=
      exists_run_of_merge? applied
    exact apart ⟨left, run, right, aggregate, length, split, some_member, is_run⟩

theorem foldInitializer?_eq_none_iff {index : Nat} :
    foldInitializer? body tree index = none ↔ ¬tree.FoldsAt body index := by
  constructor
  · rintro refused ⟨left, _, _, right, _, _, _, _, _, rfl, split, folds⟩
    simpa [refused] using foldInitializer?_isSome split folds
  · intro apart
    rw [← Option.not_isSome_iff_eq_none]
    intro applied
    obtain ⟨changed, applied⟩ := Option.isSome_iff_exists.mp applied
    obtain ⟨left, _, _, right, _, _, _, _, _, length, split, folds, _⟩ :=
      exists_folds_of_foldInitializer? applied
    exact apart ⟨left, _, _, right, _, _, _, _, _, length, split, folds⟩

/-- A tidy body is left as it is. -/
theorem IsTidy.cleanBody_eq_self (tidy : tree.IsTidy body) (placed : tree.IsPlaced (some body)) :
    cleanBody body tree = (tree, 0) := by
  have flat : flatten body tree = (tree, 0) :=
    applyAll_eq_self fun _ _ => absorb?_eq_none_iff.mpr tidy.flat
  have promoted : promote body tree = (tree, 0) :=
    applyAll_eq_self fun child held =>
      (promote?_eq_none_iff placed held).mpr (tidy.promoted child held)
  have settled : settle body tree = (tree, 0) :=
    applyAll_eq_self fun child held => settle?_eq_none_iff.mpr (tidy.settled child held)
  have merged : mergeMembers body tree = (tree, 0) :=
    applyAll_eq_self fun index _ => merge?_eq_none_iff.mpr (tidy.merged index)
  have folded : foldInitializers body tree = (tree, 0) :=
    applyAll_eq_self fun index _ => foldInitializer?_eq_none_iff.mpr (tidy.folded index)
  unfold cleanBody
  split
  · simp only [Tidying.andThen, flat, promoted, settled, merged, folded]
  · rfl

end Refusals

section Sparing

/-- A step changes one statement, which no node uses as an operand, and child statements of others. -/
structure Spares (new : NodeId) (before after : ScriptTree) : Prop where
  /-- No node is lost. -/
  size : before.size ≤ after.size
  /-- Other nodes change at most their child statements. -/
  node : ∀ id ≠ new, ∃ statements, after.node id = (before.node id).holding statements
  /-- The statement is no operand. -/
  unused : ∀ user, new ∉ (before.node user).operands
  /-- Aggregates and members stay. -/
  vars : before.vars.Alike after.vars

namespace Spares

variable (spares : Spares new before after)

include spares

/-- Nodes without child statements stay as they are. -/
theorem node_eq {id : NodeId} (other : id ≠ new) {node : Node} (here : after.node id = node)
    (bare : node.body? = none) : before.node id = node := by
  obtain ⟨statements, same⟩ := spares.node id other
  exact Node.eq_of_holding_eq (same.symm.trans here) bare

theorem ne_of_operand {user operand : NodeId} (used : operand ∈ (before.node user).operands) :
    operand ≠ new := by
  rintro rfl
  exact spares.unused user used

theorem mentionsFrom {var : VarId} {depth deeper : Nat} (room : depth ≤ deeper) {id : NodeId}
    (other : id ≠ new) (mentioned : before.mentionsFrom var depth id) :
    after.mentionsFrom var deeper id := by
  induction depth generalizing deeper id with
  | zero => cases mentioned
  | succ depth induction =>
      obtain ⟨deeper, rfl⟩ := Nat.exists_eq_succ_of_ne_zero (Nat.ne_zero_of_lt room)
      obtain ⟨statements, same⟩ := spares.node id other
      have below : (before.node id).operands.any (before.mentionsFrom var depth) →
          (before.node id).operands.any (after.mentionsFrom var deeper) := by
        simp only [List.any_eq_true]
        rintro ⟨operand, used, inner⟩
        exact ⟨operand, used,
          induction (Nat.le_of_succ_le_succ room) (spares.ne_of_operand used) inner⟩
      rw [ScriptTree.mentionsFrom] at mentioned ⊢
      rw [same]
      revert below mentioned
      cases before.node id
      case reference used =>
        exact fun mentioned _ => by simpa [Node.mapBody, spares.vars.root] using mentioned
      all_goals exact fun mentioned below => below mentioned

theorem folds {declaration next : NodeId} {var : VarId} {pending : Bool}
    {expression target value : NodeId} (first : declaration ≠ new) (second : next ≠ new)
    (folds : after.Folds declaration next var pending expression target value) :
    before.Folds declaration next var pending expression target value := by
  have states := spares.node_eq second folds.states rfl
  have used : expression ∈ (before.node next).operands := by simp [states, Node.operands]
  have assigns := spares.node_eq (spares.ne_of_operand used) folds.assigns rfl
  have names_used : target ∈ (before.node expression).operands := by simp [assigns, Node.operands]
  have value_used : value ∈ (before.node expression).operands := by simp [assigns, Node.operands]
  refine ⟨spares.node_eq first folds.declares rfl, states, assigns,
    spares.node_eq (spares.ne_of_operand names_used) folds.names rfl, ?_⟩
  by_contra mentioned
  have still := spares.mentionsFrom (Nat.succ_le_succ spares.size) (spares.ne_of_operand value_used)
    (by simpa [mentions] using mentioned)
  simpa [mentions, still] using folds.apart

theorem isRun {aggregate : VarId} {run : List NodeId} (others : ∀ statement ∈ run, statement ≠ new)
    (is_run : after.IsRun aggregate run) : before.IsRun aggregate run := by
  have same : run.map after.memberDeclaration? = run.map before.memberDeclaration? := by
    refine List.map_congr_left fun statement listed => ?_
    obtain ⟨statements, changed⟩ := spares.node statement (others statement listed)
    rw [memberDeclaration?, memberDeclaration?, changed, spares.vars.parent?]
    cases before.node statement <;> rfl
  rw [IsRun, ← same, is_run, spares.vars.members]

/-- A body stays tidy if its statements stay and no expression is linked to it. -/
theorem isTidy (tidy : before.IsTidy body) (same : after.children body = before.children body)
    (apart : new ∉ before.children body)
    (links : ∀ child ∈ before.children body, after.parent? child = some body →
      before.parent? child = some body) : after.IsTidy body := by
  have other : ∀ child ∈ before.children body, child ≠ new := by
    rintro child held rfl
    exact apart held
  refine ⟨fun inner single => ?_, fun child held loose => ?_, fun child held pending => ?_,
    fun index merges => ?_, fun index folds => ?_⟩
  · rw [same] at single
    obtain ⟨statements, changed⟩ := spares.node inner (other inner (by simp [single]))
    rw [changed, Node.isBlock_mapBody]
    exact tidy.flat inner single
  · rw [same] at held
    obtain ⟨statements, changed⟩ := spares.node child (other child held)
    refine tidy.promoted child held ⟨?_, links child held loose.2⟩
    simpa [changed] using loose.1
  · rw [same] at held
    obtain ⟨var, init, here⟩ := pending
    exact tidy.settled child held ⟨var, init, spares.node_eq (other child held) here rfl⟩
  · obtain ⟨left, run, right, aggregate, length, split, some_member, is_run⟩ := merges
    rw [same] at split
    rw [spares.vars.members] at some_member
    refine tidy.merged index ⟨left, run, right, aggregate, length, split, some_member,
      spares.isRun (fun statement listed => other statement ?_) is_run⟩
    rw [split]
    exact List.mem_append_left _ (List.mem_append_right _ listed)
  · obtain ⟨left, declaration, next, right, _, _, _, _, _, length, split, folds⟩ := folds
    rw [same] at split
    exact tidy.folded index ⟨left, declaration, next, right, _, _, _, _, _, length, split,
      spares.folds (other _ (by simp [split])) (other _ (by simp [split])) folds⟩

end Spares
end Sparing

section Steps

/-- What a rule puts in the place of which statements. -/
inductive Rule (tree : ScriptTree) : NodeId → Node → List NodeId → Prop
  /-- A new statement in the place of an expression evaluates it. -/
  | promote {child : NodeId} (expression : (tree.node child).isExpression) :
      Rule tree tree.size (.statement child) [child]
  /-- A declaration is settled. -/
  | settle {declaration : NodeId} {var : VarId} {init : Option NodeId}
      (pending : tree.node declaration = .declaration var init true) :
      Rule tree declaration (.declaration var init false) [declaration]
  /-- A new declaration of an aggregate takes the place of those of its members. -/
  | merge {aggregate : VarId} {run : List NodeId} (is_run : tree.IsRun aggregate run) :
      Rule tree tree.size (.declaration aggregate none false) run
  /-- A declaration takes the value that is assigned behind it. -/
  | fold {declaration next : NodeId} {var : VarId} {pending : Bool}
      {expression target value : NodeId}
      (folds : tree.Folds declaration next var pending expression target value) :
      Rule tree declaration (.declaration var (some value) pending) [declaration, next]

/-- One rule applied to a body. -/
inductive Step (host : NodeId) (before after : ScriptTree) : Prop
  /-- The body takes over the statements of a block. -/
  | absorb {inner : NodeId} (absorbs : Absorbs host inner before after)
  /-- One statement takes the place of others. -/
  | rewrite {new : NodeId} {statement : Node} {left old right : List NodeId}
      (rewrites : Rewrites host new statement left old right before after)
      (rule : before.Rule new statement old)

namespace Step

theorem isPlaced (step : Step host before after) (placed : before.IsPlaced (some host)) :
    after.IsPlaced (some host) := by
  cases step with
  | absorb absorbs => exact absorbs.isPlaced placed
  | rewrite rewrites _ => exact rewrites.isPlaced placed

theorem reaches_body (step : Step host before after) (placed : before.IsPlaced (some host))
    {id : NodeId} (reaches : after.Reaches root id) (owns : (after.node id).body?.isSome) :
    before.Reaches root id ∧ (before.node id).body?.isSome := by
  cases step with
  | absorb absorbs => exact absorbs.reaches_body placed reaches owns
  | rewrite rewrites _ => exact rewrites.reaches_body placed reaches owns

theorem vars (step : Step host before after) : before.vars.Alike after.vars := by
  cases step with
  | absorb absorbs => exact absorbs.vars ▸ .refl _
  | rewrite rewrites _ => exact rewrites.vars

end Step

theorem Absorbs.spares {inner : NodeId} (absorbs : Absorbs host inner before after)
    (placed : before.IsPlaced (some host)) : Spares before.size before after where
  size := Nat.le_of_eq absorbs.size.symm
  node := fun id _ => absorbs.exists_node_eq id
  unused := fun _ used => Nat.lt_irrefl _ (placed.inside (.inl used))
  vars := absorbs.vars ▸ .refl _

theorem Rewrites.spares {statement : Node} {left old right : List NodeId}
    (rewrites : Rewrites host new statement left old right before after)
    (placed : before.IsPlaced (some host)) : Spares new before after where
  size := by rcases rewrites.place with ⟨_, size⟩ | ⟨_, size⟩ <;> omega
  node := fun _ => rewrites.exists_node_eq
  unused := rewrites.not_mem_operands placed
  vars := rewrites.vars

/-- A body of expressions in use is tidy. -/
theorem IsTidy.of_expressions (expressions : ∀ child ∈ tree.children body,
    (tree.node child).isExpression ∧ tree.parent? child ≠ some body) : tree.IsTidy body := by
  refine ⟨fun inner single => ?_, fun child held loose => (expressions child held).2 loose.2,
    fun child held pending => ?_, fun index merges => ?_, fun index folds => ?_⟩
  · have expression := (expressions inner (by simp [single])).1
    by_contra block
    simp [Node.not_isExpression_of_isBlock (by simpa using block)] at expression
  · obtain ⟨var, init, here⟩ := pending
    simpa [here, Node.isExpression] using (expressions child held).1
  · obtain ⟨left, run, right, aggregate, _, split, some_member, is_run⟩ := merges
    obtain ⟨first, others, rfl⟩ := List.exists_cons_of_ne_nil (is_run.ne_nil some_member)
    obtain ⟨_, _, here, _⟩ := is_run.declares List.mem_cons_self
    simpa [here, Node.isExpression] using (expressions first (by simp [split])).1
  · obtain ⟨left, declaration, next, right, _, _, _, _, _, _, split, folds⟩ := folds
    simpa [folds.declares, Node.isExpression] using (expressions declaration (by simp [split])).1

/-- A block that was absorbed keeps expressions that are in use elsewhere. -/
theorem Absorbs.isTidy_inner {inner : NodeId} (absorbs : Absorbs host inner before after)
    (placed : before.IsPlaced (some host)) : after.IsTidy inner := by
  refine .of_expressions fun child held => ?_
  rw [absorbs.children_inner placed, remaining, List.mem_filter] at held
  obtain ⟨there, kept⟩ := held
  have elsewhere : before.parent? child ≠ some inner := by simpa [there] using kept
  rw [absorbs.parent?, if_pos there, absorbs.isExpression]
  refine ⟨?_, fun same => absorbs.inner_ne_host placed (Option.some.inj same).symm⟩
  rcases placed.linked there with own | ⟨expression, _⟩
  · exact absurd own elsewhere
  · exact expression

/-- A step at one body leaves other bodies tidy. -/
theorem Step.isTidy (step : Step host before after) (placed : before.IsPlaced (some host))
    (other : body ≠ host) (owns : (before.node body).body?.isSome) (tidy : before.IsTidy body) :
    after.IsTidy body := by
  cases step with
  | @absorb inner absorbs =>
      by_cases same : body = inner
      · exact same ▸ absorbs.isTidy_inner placed
      refine (absorbs.spares placed).isTidy tidy (absorbs.children_of_ne other same)
        (fun held => Nat.lt_irrefl _ (placed.child_inside held)) fun child held linked => ?_
      rw [absorbs.parent?] at linked
      split at linked
      · exact absurd (Option.some.inj linked).symm other
      · split at linked
        · cases linked
        · exact linked
  | @rewrite new statement left old right rewrites _ =>
      refine (rewrites.spares placed).isTidy tidy (rewrites.children_of_ne other)
        (fun held => other (rewrites.holder_eq_host placed held)) fun child held linked => ?_
      rw [rewrites.parent?] at linked
      split at linked
      · exact absurd (Option.some.inj linked).symm other
      split at linked
      · have same := Option.some.inj linked
        rw [← same, rewrites.bare_before] at owns
        cases owns
      split at linked
      · cases linked
      · exact linked

end Steps

end ScriptTree
end NwScript
