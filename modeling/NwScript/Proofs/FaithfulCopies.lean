import NwScript.Proofs.ChangedOperands
import NwScript.Proofs.CleanupTwice
import NwScript.Proofs.ReadableNodes

/-!
# Faithful copies of expressions

Copying an expression adds a node for each of its operands, then one for itself.  The copy names the same
variables and texts as the original, so it spells the same expression, but it shares no operand with it:
what stood in the tree stays as it was, and what the copy is made of is new.
-/

namespace NwScript

theorem Node.assemble_withOperands (name : VarId → String) (parts : List Expression) (copies : List NodeId)
    (node : Node) : (node.withOperands copies).assemble name parts = node.assemble name parts := by
  cases node <;> rfl

namespace ScriptTree

variable {origin tree middle after : ScriptTree} {id copy first : NodeId} {ids copies : List NodeId}
  {node : Node}

/-- An expression is built from nodes of the tree, none of them a deferred argument. -/
abbrev IsBuilt (tree : ScriptTree) : NodeId → Prop :=
  Grounded (fun id => id < tree.size ∧ (tree.node id).isPlainExpression) fun id => (tree.node id).operands

section Reading

theorem forall_right_of_forall₂ {α β : Type} {Related : α → β → Prop} {Good : β → Prop}
    {left : List α} {right : List β} (related : List.Forall₂ Related left right)
    (good : ∀ {one other}, Related one other → Good other) : ∀ other ∈ right, Good other :=
  ((List.forall₂_and_left _ _).mp (related.flip.imp fun _ _ here => ⟨good here, here⟩)).1

/-- The expression that a use of a variable stands for. -/
def standsFor? (tree : ScriptTree) : Node → Option NodeId
  | .reference var => tree.temporaryValue? var
  | _ => none

theorem standsFor?_withOperands (tree : ScriptTree) (copies : List NodeId) (node : Node) :
    tree.standsFor? (node.withOperands copies) = tree.standsFor? node := by
  cases node <;> rfl

theorem Prolongs.standsFor? (prolongs : origin.Prolongs after) (node : Node) :
    after.standsFor? node = origin.standsFor? node := by
  cases node with
  | reference var => exact prolongs.temporaryValue? var
  | _ => rfl

theorem readsNext_eq (plain : (tree.node id).isPlainExpression) :
    tree.readsNext id = (tree.node id).operands ++ (tree.standsFor? (tree.node id)).toList := by
  rw [readsNext]
  generalize tree.node id = node at plain ⊢
  cases node with
  | reference var => rfl
  | branch | whileLoop | doLoop | switch | case | declaration | statement | ret | closure => cases plain
  | _ => exact (List.append_nil _).symm

/-- A node whose operands read like those of another one, and which is like it otherwise. -/
theorem readsAs_withOperands (prolongs : origin.Prolongs after)
    (plain : (origin.node id).isPlainExpression) (inside : copy < after.size)
    (same : after.node copy = (origin.node id).withOperands copies)
    (each : List.Forall₂ (fun id copy => origin.IsReadable id → origin.ReadsAs after id copy)
      (origin.node id).operands copies)
    (readable : origin.IsReadable id) : origin.ReadsAs after id copy := by
  obtain ⟨_, below⟩ := readable
  have follows : List.Forall₂ (origin.ReadsAs after) (origin.readsNext id) (after.readsNext copy) := by
    have alike : (after.node copy).isPlainExpression := by
      rwa [same, Node.isPlainExpression_withOperands]
    rw [readsNext_eq plain] at below ⊢
    rw [readsNext_eq alike, same, Node.operands_withOperands plain each.length_eq.symm,
      standsFor?_withOperands, prolongs.standsFor?]
    apply List.rel_append
    · have used : ∀ operand ∈ (origin.node id).operands, origin.IsReadable operand :=
        fun operand used => below operand (List.mem_append_left _ used)
      exact ((List.forall₂_and_left _ _).mpr ⟨used, each⟩).imp fun _ _ both => both.2 both.1
    · refine List.forall₂_same.mpr fun value held => prolongs.readsAs ?_
      exact below value (List.mem_append_right _ held)
  constructor
  · exact .intro inside (forall_right_of_forall₂ follows ReadsAs.readable)
  · intro depth
    cases depth with
    | zero => rfl
    | succ depth =>
        have parts : List.Forall₂ Eq ((origin.readsNext id).map (origin.expressionFrom depth))
            ((after.readsNext copy).map (after.expressionFrom depth)) :=
          List.rel_map (fun _ _ reads => (reads.spelled depth).symm) follows
        rw [List.forall₂_eq_eq_eq] at parts
        rw [expressionFrom_succ, expressionFrom_succ, same, Node.assemble_withOperands,
          prolongs.varName, parts]

end Reading

/-- Nodes are added behind the others, none of which gets another user. -/
structure Appends (before after : ScriptTree) : Prop extends before.Prolongs after where
  /-- There is a link for each node. -/
  sized : after.parents.size = after.size
  /-- The links of the others stay. -/
  parent? : ∀ id < before.size, after.parent? id = before.parent? id

namespace Appends

theorem refl (sized : tree.parents.size = tree.size) : tree.Appends tree where
  toProlongs := .refl tree
  sized := sized
  parent? _ _ := rfl

theorem trans (former : tree.Appends middle) (latter : middle.Appends after) : tree.Appends after where
  toProlongs := former.toProlongs.trans latter.toProlongs
  sized := latter.sized
  parent? id old := by
    rw [latter.parent? id (Nat.lt_of_lt_of_le old former.size), former.parent? id old]

/-- The node that is added uses only nodes that are new themselves. -/
theorem add (appends : tree.Appends middle)
    (new : ∀ operand ∈ node.operands, tree.size ≤ operand ∧ operand < middle.size) :
    tree.Appends (middle.add node).1 where
  toProlongs := appends.toProlongs.trans (.add middle node)
  sized := by rw [size_parents_add, size_add, appends.sized]
  parent? id old := by
    have other : id ∉ node.operands := fun used => Nat.not_le.mpr old (new id used).1
    rw [parent?_add node fun operand used => appends.sized ▸ (new operand used).2, if_neg other,
      appends.parent? id old]

end Appends

/-- A new node whose operands are all new reads like another node. -/
structure IsTwin (origin tree : ScriptTree) (first id copy : NodeId) : Prop where
  /-- It is built from the nodes from a number on. -/
  fresh : Grounded (fun id => first ≤ id ∧ id < tree.size) (fun id => (tree.node id).operands) copy
  /-- What it reads like can be read. -/
  reads : origin.IsReadable id → origin.ReadsAs tree id copy

theorem IsTwin.mono {earlier : NodeId} (twin : origin.IsTwin middle first id copy)
    (prolongs : middle.Prolongs after) (early : earlier ≤ first) :
    origin.IsTwin after earlier id copy where
  fresh := by
    refine twin.fresh.mono fun id good => ⟨⟨?_, ?_⟩, ?_⟩
    · exact Nat.le_trans early good.1
    · exact Nat.lt_of_lt_of_le good.2 prolongs.size
    · rw [prolongs.node id good.2]
  reads readable := (twin.reads readable).trans (prolongs.readsAs (twin.reads readable).readable)

/-- An expression has been copied. -/
structure IsCopied (origin before after : ScriptTree) (id copy : NodeId) : Prop where
  /-- Nothing else has changed. -/
  appends : before.Appends after
  /-- Nothing uses the copy. -/
  detached : after.parent? copy = none
  /-- The copy is new and reads alike. -/
  twin : origin.IsTwin after before.size id copy

/-- A step copies an expression, also after nodes have been added. -/
def CopiedBy (origin : ScriptTree) (step : StateM ScriptTree NodeId) (id : NodeId) : Prop :=
  ∀ before, origin.Appends before →
    ∃ copy after, step.run before = (copy, after) ∧ origin.IsCopied before after id copy

section Copying

variable {before : ScriptTree} {depth : Nat}

/-- Copies that are made one after another. -/
theorem mapM_copies {change : NodeId → StateM ScriptTree NodeId}
    (each : ∀ id ∈ ids, origin.CopiedBy (change id) id) (appends : origin.Appends before) :
    ∃ copies after, (ids.mapM change).run before = (copies, after) ∧ before.Appends after ∧
      List.Forall₂ (origin.IsTwin after before.size) ids copies := by
  induction ids generalizing before with
  | nil => exact ⟨[], before, rfl, .refl appends.sized, .nil⟩
  | cons id ids induction =>
      obtain ⟨copy, middle, first, copied⟩ := each id List.mem_cons_self before appends
      obtain ⟨copies, after, rest, later, twins⟩ := induction
        (fun other listed => each other (List.mem_cons_of_mem _ listed)) (appends.trans copied.appends)
      refine ⟨copy :: copies, after, ?_, copied.appends.trans later, .cons ?_ (twins.imp ?_)⟩
      · rw [List.mapM_cons, StateT.run_bind, first]
        exact congrArg (fun ran => (copy :: ran.1, ran.2)) rest
      · exact copied.twin.mono later.toProlongs (Nat.le_refl _)
      · exact fun _ _ twin => twin.mono (.refl after) copied.appends.size

/-- The operands are copied before the expression. -/
theorem run_duplicateFrom_succ (plain : (before.node id).isPlainExpression)
    (ran : ((before.node id).operands.mapM (duplicateFrom depth)).run before = (copies, middle)) :
    (duplicateFrom (depth + 1) id).run before =
      (middle.size, (middle.add ((before.node id).withOperands copies)).1) := by
  have changed : ((before.node id).mapOperandsM (duplicateFrom depth)).run before =
      ((before.node id).withOperands copies, middle) := by
    rw [Node.mapOperandsM_eq _ plain, StateT.run_bind, ran]
    rfl
  exact congrArg (fun ran => (ran.2.size, (ran.2.add ran.1).1)) changed

theorem copiedBy_duplicateFrom_succ (inside : id < origin.size)
    (plain : (origin.node id).isPlainExpression)
    (each : ∀ operand ∈ (origin.node id).operands,
      origin.CopiedBy (duplicateFrom depth operand) operand) :
    origin.CopiedBy (duplicateFrom (depth + 1) id) id := by
  intro before appends
  obtain ⟨copies, middle, ran, later, twins⟩ := mapM_copies each appends
  have here := appends.node id inside
  let node := (origin.node id).withOperands copies
  have used : node.operands = copies := Node.operands_withOperands plain twins.length_eq.symm
  have new : ∀ operand ∈ node.operands, before.size ≤ operand ∧ operand < middle.size := by
    rw [used]
    exact forall_right_of_forall₂ twins fun twin => twin.fresh.good_of_chain .refl
  have whole : before.Appends (middle.add node).1 := later.add new
  have grown : List.Forall₂ (origin.IsTwin (middle.add node).1 before.size)
      (origin.node id).operands copies :=
    twins.imp fun _ _ twin => twin.mono (.add middle node) (Nat.le_refl _)
  refine ⟨middle.size, (middle.add node).1, ?_, whole, ?_, ?_, fun readable => ?_⟩
  · rw [← here] at plain ran
    rw [run_duplicateFrom_succ plain ran, here]
  · have loose : middle.size ∉ node.operands := fun own => Nat.lt_irrefl _ (new _ own).2
    rw [parent?_add node fun operand used => later.sized ▸ (new operand used).2, if_neg loose]
    exact Option.eq_none_iff_forall_ne_some.mpr fun user linked =>
      Nat.lt_irrefl _ (later.sized ▸ lt_of_parent? linked)
  · refine .intro ⟨later.size, by simp⟩ ?_
    rw [node_add_self, used]
    exact forall_right_of_forall₂ grown IsTwin.fresh
  · exact readsAs_withOperands (appends.trans whole).toProlongs plain (by simp)
      (node_add_self middle node) (grown.imp fun _ _ twin => twin.reads) readable

/-- An expression is copied, however many nodes have been added behind it. -/
theorem copiedBy_duplicateFrom (built : origin.IsBuilt id) (room : origin.size ≤ depth) :
    origin.CopiedBy (duplicateFrom depth id) id :=
  built.holds (fun depth id => origin.CopiedBy (duplicateFrom depth id) id) (fun _ good => good.1)
    (fun _ _ good each => copiedBy_duplicateFrom_succ good.1 good.2 each) room

/-- A copy of an expression is detached and reads like it.  Copying adds all nodes that the copy is made
of, and the nodes that there were keep their contents and their users and read as before. -/
theorem duplicate_copies_expression (sized : tree.parents.size = tree.size) (built : tree.IsBuilt id) :
    let after := (tree.duplicate id).1
    let copy := (tree.duplicate id).2
    after.parent? copy = none ∧
      (tree.IsReadable id → after.render copy = tree.render id) ∧
      (∀ lower, Relation.ReflTransGen (fun upper lower => lower ∈ (after.node upper).operands) copy lower →
        tree.size ≤ lower ∧ lower < after.size) ∧
      (∀ other < tree.size, after.node other = tree.node other ∧
        after.parent? other = tree.parent? other) ∧
      ∀ other, tree.IsReadable other → after.render other = tree.render other := by
  obtain ⟨copy, after, ran, copied⟩ := copiedBy_duplicateFrom built (Nat.le_succ _) tree (.refl sized)
  have same : tree.duplicate id = (after, copy) := congrArg (fun ran => (ran.2, ran.1)) ran
  rw [same]
  refine ⟨copied.detached, fun readable => ?_, fun lower chain => ?_, fun other old => ⟨?_, ?_⟩,
    fun other readable => ?_⟩
  · exact (copied.twin.reads readable).render readable
  · exact copied.twin.fresh.good_of_chain chain
  · exact copied.appends.node other old
  · exact copied.appends.parent? other old
  · exact (copied.appends.readsAs readable).render readable

/-- A call is given a sum of an intermediate value, which stands for a product, and a constant. -/
def nestedCall : ScriptTree :=
  sample
    [.block { children := [], start := 0, limit := 40 },
      .reference 0, .literal (.int 2), .binary .mul 1 2,
      .reference 1, .literal (.int 1), .binary .add 4 5, .call 3 "f" [6]]
    [none, some 3, some 3, none, some 6, some 6, some 7, none]
    [{ kind := .localVar, type := .int, name := some "x" }, .temporary .int 3]

/-- The copy of the call is the last of four new nodes, and stands for the same product. -/
theorem duplicate_nestedCall :
    nestedCall.parents.size = nestedCall.size ∧ nestedCall.IsBuilt 7 ∧ nestedCall.IsReadable 7 ∧
      (nestedCall.duplicate 7).2 = 11 ∧ (nestedCall.duplicate 7).1.parent? 11 = none ∧
      (nestedCall.duplicate 7).1.render 11 = "f(x * 2 + 1)" ∧
      (nestedCall.duplicate 7).1.render 7 = "f(x * 2 + 1)" ∧
      (nestedCall.duplicate 7).1.node 6 = .binary .add 4 5 ∧
      (nestedCall.duplicate 7).1.parent? 6 = some 7 := by
  have sized : nestedCall.parents.size = nestedCall.size := rfl
  have built : nestedCall.IsBuilt 7 := .of_falling 4 8 (by decide) (by decide) (by decide)
  have readable : nestedCall.IsReadable 7 := .of_falling 1 8 (by decide) (by decide) (by decide)
  obtain ⟨detached, reads, _, kept, others⟩ := duplicate_copies_expression sized built
  obtain ⟨content, user⟩ := kept 6 (by decide)
  exact ⟨sized, built, readable, rfl, detached, reads readable, others 7 readable, content, user⟩

end Copying

end ScriptTree
end NwScript
