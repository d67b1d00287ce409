import NwScript.Proofs.TreeWalks
import NwScript.Script.Reading

/-!
# Nodes that can be read

Reading a node goes on to its operands, to the expression that an intermediate value stands for, and to
what a deferred argument evaluates.  It comes to an end if it never comes back to a node, and then it takes
no more turns than there are nodes.  Nodes that are added later make no difference to it.
-/

namespace NwScript

namespace ScriptTree

/-- Following a node meets good nodes only and comes to an end. -/
inductive Grounded (good : NodeId → Prop) (next : NodeId → List NodeId) : NodeId → Prop
  /-- The node is good, and so is what it leads to. -/
  | intro {id : NodeId} (here : good id) (below : ∀ lower ∈ next id, Grounded good next lower) :
      Grounded good next id

namespace Grounded

variable {good other : NodeId → Prop} {next later : NodeId → List NodeId} {id lower : NodeId}

theorem good_of_chain (grounded : Grounded good next id)
    (chain : Relation.ReflTransGen (fun upper lower => lower ∈ next upper) id lower) : good lower := by
  induction grounded with
  | intro here below induction =>
      rcases Relation.ReflTransGen.cases_head chain with rfl | ⟨middle, first, rest⟩
      · exact here
      · exact induction middle first rest

theorem mono (grounded : Grounded good next id)
    (each : ∀ id, good id → other id ∧ later id = next id) : Grounded other later id := by
  induction grounded with
  | intro here below induction =>
      obtain ⟨kept, same⟩ := each _ here
      exact .intro kept (same ▸ induction)

/-- Following never comes back. -/
theorem acyclic (grounded : Grounded good next id) :
    ¬Relation.TransGen (fun upper lower => lower ∈ next upper) id id := by
  induction grounded with
  | intro here below induction =>
      intro circle
      obtain ⟨lower, first, rest⟩ := Relation.TransGen.head'_iff.mp circle
      exact induction lower first (Relation.TransGen.tail' rest first)

/-- Following leads to lower and lower numbers. -/
theorem of_falling (least bound : Nat) (each : ∀ id < bound, least ≤ id →
    good id ∧ ∀ lower ∈ next id, least ≤ lower ∧ lower < id) (inside : id < bound) (above : least ≤ id) :
    Grounded good next id := by
  induction id using Nat.strong_induction_on with
  | h id induction =>
      obtain ⟨here, falls⟩ := each id inside above
      refine .intro here fun lower followed => ?_
      obtain ⟨high, low⟩ := falls lower followed
      exact induction lower low (Nat.lt_trans low inside) high

section Turns

variable {bound : Nat} {above : List NodeId}

/-- A node and those above it are different nodes. -/
theorem nodup_above (grounded : Grounded good next id) (inside : ∀ id, good id → id < bound)
    (different : above.Nodup) (known : above ⊆ List.range bound)
    (leads : ∀ upper ∈ above, Relation.TransGen (fun upper lower => lower ∈ next upper) upper id) :
    (id :: above).Nodup ∧ (id :: above) ⊆ List.range bound := by
  have absent : id ∉ above := fun listed => grounded.acyclic (leads id listed)
  have here : id ∈ List.range bound := List.mem_range.mpr (inside id (grounded.good_of_chain .refl))
  exact ⟨List.nodup_cons.mpr ⟨absent, different⟩, List.cons_subset.mpr ⟨here, known⟩⟩

/-- A recursion along the nodes that are followed, where those above have had their turns. -/
theorem holds_of_above {holds : Nat → NodeId → Prop} {depth : Nat}
    (inside : ∀ id, good id → id < bound)
    (step : ∀ depth id, good id → (∀ lower ∈ next id, holds depth lower) → holds (depth + 1) id)
    (grounded : Grounded good next id) (different : above.Nodup) (known : above ⊆ List.range bound)
    (leads : ∀ upper ∈ above, Relation.TransGen (fun upper lower => lower ∈ next upper) upper id)
    (room : bound ≤ depth + above.length) : holds depth id := by
  induction depth generalizing id above with
  | zero =>
      obtain ⟨nodes, listed⟩ := grounded.nodup_above inside different known leads
      have short := (List.subperm_of_subset nodes listed).length_le
      rw [List.length_cons, List.length_range] at short
      omega
  | succ depth induction =>
      obtain ⟨nodes, listed⟩ := grounded.nodup_above inside different known leads
      obtain ⟨here, below⟩ := grounded
      apply step depth id here
      intro lower followed
      refine induction (below lower followed) nodes listed ?_ ?_
      · intro upper higher
        rcases List.mem_cons.mp higher with rfl | higher
        · exact .single followed
        · exact .tail (leads upper higher) followed
      · rw [List.length_cons]
        omega

/-- A recursion along the nodes that are followed needs no more turns than there are good nodes. -/
theorem holds {depth : Nat} (holds : Nat → NodeId → Prop) (grounded : Grounded good next id)
    (inside : ∀ id, good id → id < bound)
    (step : ∀ depth id, good id → (∀ lower ∈ next id, holds depth lower) → holds (depth + 1) id)
    (room : bound ≤ depth) : holds depth id :=
  holds_of_above inside step grounded List.nodup_nil (List.nil_subset _)
    (fun _ listed => absurd listed List.not_mem_nil) room

end Turns

end Grounded

end ScriptTree

/-- The expression that a node spells, given what its operands spell or what it stands for. -/
def Node.assemble (name : VarId → String) (parts : List Expression) (node : Node) : Expression :=
  let part (place : Nat) := parts.getD place ScriptTree.missing
  match node with
  | .literal value => .literal value
  | .reference var => if parts.isEmpty then .word (name var) else .inlined (part 0)
  | .member _ field => .member (part 0) field
  | .vector _ _ _ => .vector (part 0) (part 1) (part 2)
  | .assign _ _ => .assign (part 0) (part 1)
  | .binary op _ _ => .binary op (part 0) (part 1)
  | .logical op _ _ => .logical op (part 0) (part 1)
  | .unary op _ => .unary op (part 0)
  | .step op before _ => .step op before (part 0)
  | .action _ name _ | .call _ name _ => .call name parts
  | .closure _ => if parts.isEmpty then ScriptTree.missing else .inlined (part 0)
  | .placeholder name => .word name
  | _ => ScriptTree.missing

namespace ScriptTree

variable {tree before middle after : ScriptTree} {id : NodeId} {depth : Nat}

/-- The nodes that reading a node goes on to. -/
def readsNext (tree : ScriptTree) (id : NodeId) : List NodeId :=
  match tree.node id with
  | .reference var => (tree.temporaryValue? var).toList
  | .closure body => (tree.closureValue? body).toList
  | node => if node.isExpression then node.operands else []

/-- Reading a node meets nodes of the tree only and comes to an end. -/
abbrev IsReadable (tree : ScriptTree) : NodeId → Prop :=
  Grounded (· < tree.size) tree.readsNext

section Reading

theorem expressionFrom_succ (tree : ScriptTree) (depth : Nat) (id : NodeId) :
    tree.expressionFrom (depth + 1) id =
      (tree.node id).assemble tree.varName ((tree.readsNext id).map (tree.expressionFrom depth)) := by
  rw [expressionFrom, readsNext]
  cases tree.node id with
  | reference var => cases held : tree.temporaryValue? var <;> simp [Node.assemble, held]
  | closure body => cases held : tree.closureValue? body <;> simp [Node.assemble, held]
  | _ => rfl

/-- To read a node as deep as there are nodes is to read it. -/
theorem IsReadable.expressionFrom_eq (readable : tree.IsReadable id) (room : tree.size ≤ depth) :
    tree.expressionFrom depth id = tree.expression id := by
  let Settled (depth : Nat) (id : NodeId) : Prop :=
    ∀ more, depth ≤ more → tree.expressionFrom more id = tree.expressionFrom depth id
  have settled : Settled tree.size id := by
    refine readable.holds Settled (fun _ inside => inside) ?_ (Nat.le_refl _)
    intro depth id _ below more room
    obtain ⟨more, rfl⟩ := Nat.exists_eq_add_of_le' room
    rw [← Nat.add_assoc, expressionFrom_succ, expressionFrom_succ]
    refine congrArg (Node.assemble _ · _) (List.map_congr_left fun lower followed => ?_)
    exact below lower followed _ (Nat.le_add_left depth more)
  rw [settled depth room, expression, settled _ (Nat.le_succ _)]

end Reading

/-- A node reads like a node of another tree. -/
structure ReadsAs (before after : ScriptTree) (id copy : NodeId) : Prop where
  /-- Reading it comes to an end. -/
  readable : after.IsReadable copy
  /-- It spells the same expression, however deep it is read. -/
  spelled : ∀ depth, after.expressionFrom depth copy = before.expressionFrom depth id

namespace ReadsAs

variable {copy : NodeId}

theorem trans {again : NodeId} (first : before.ReadsAs middle id copy)
    (second : middle.ReadsAs after copy again) : before.ReadsAs after id again where
  readable := second.readable
  spelled depth := (second.spelled depth).trans (first.spelled depth)

theorem expression (reads : before.ReadsAs after id copy) (readable : before.IsReadable id) :
    after.expression copy = before.expression id := by
  rw [← reads.readable.expressionFrom_eq (Nat.le_max_right before.size after.size), reads.spelled,
    readable.expressionFrom_eq (Nat.le_max_left before.size after.size)]

theorem render (reads : before.ReadsAs after id copy) (readable : before.IsReadable id) :
    after.render copy = before.render id :=
  congrArg Expression.text (reads.expression readable)

end ReadsAs

/-- Nodes are added behind the others, and all that reading them goes by stays. -/
structure Prolongs (before after : ScriptTree) : Prop where
  /-- No node is lost. -/
  size : before.size ≤ after.size
  /-- Nodes stay as they are. -/
  node : ∀ id < before.size, after.node id = before.node id
  /-- Variables stay as they are. -/
  vars : after.vars = before.vars

namespace Prolongs

theorem refl (tree : ScriptTree) : tree.Prolongs tree :=
  ⟨Nat.le_refl _, fun _ _ => rfl, rfl⟩

theorem trans (first : before.Prolongs middle) (second : middle.Prolongs after) :
    before.Prolongs after where
  size := Nat.le_trans first.size second.size
  node id old := (second.node id (Nat.lt_of_lt_of_le old first.size)).trans (first.node id old)
  vars := second.vars.trans first.vars

theorem add (tree : ScriptTree) (node : Node) : tree.Prolongs (tree.add node).1 where
  size := by simp
  node _ old := node_add_of_lt node old
  vars := vars_add tree node

variable (prolongs : before.Prolongs after)

include prolongs

theorem varName : after.varName = before.varName := by
  have names : ∀ depth id, after.varNameFrom depth id = before.varNameFrom depth id := by
    intro depth
    induction depth with
    | zero =>
        intro id
        unfold varNameFrom
        rw [prolongs.vars]
    | succ depth induction =>
        intro id
        unfold varNameFrom
        rw [prolongs.vars]
        rcases before.vars.get? id with _ | entry
        · rfl
        · dsimp only
          rcases entry.parent with _ | parent
          · rfl
          · exact congrArg (· ++ "." ++ _) (induction parent)
  funext id
  rw [ScriptTree.varName, ScriptTree.varName, prolongs.vars, names]

theorem temporaryValue? (var : VarId) : after.temporaryValue? var = before.temporaryValue? var := by
  rw [ScriptTree.temporaryValue?, ScriptTree.temporaryValue?, prolongs.vars]

/-- A statement that is missing would be read itself. -/
theorem readsNext (readable : before.IsReadable id) : after.readsNext id = before.readsNext id := by
  obtain ⟨inside, below⟩ := readable
  rw [ScriptTree.readsNext, ScriptTree.readsNext, prolongs.node id inside]
  cases here : before.node id with
  | reference var => exact congrArg Option.toList (prolongs.temporaryValue? var)
  | closure body =>
      rw [ScriptTree.readsNext, here] at below
      change ∀ lower ∈ (before.closureValue? body).toList, _ at below
      refine congrArg Option.toList ?_
      unfold closureValue? at below ⊢
      split
      · rename_i statement single
        rw [single] at below
        have known : statement < before.size := by
          by_contra outside
          have missing := node_of_le (Nat.not_lt.mp outside)
          have followed := below statement (by simp [deferredValue?, missing, Node.isExpression])
          exact outside (followed.good_of_chain .refl)
        rw [deferredValue?, deferredValue?, prolongs.node statement known]
      · rfl
  | _ => rfl

theorem isReadable (readable : before.IsReadable id) : after.IsReadable id := by
  induction readable with
  | intro here below induction =>
      refine .intro (Nat.lt_of_lt_of_le here prolongs.size) ?_
      rw [prolongs.readsNext (.intro here below)]
      exact induction

theorem expressionFrom (readable : before.IsReadable id) (depth : Nat) :
    after.expressionFrom depth id = before.expressionFrom depth id := by
  induction depth generalizing id with
  | zero => rfl
  | succ depth induction =>
      rw [expressionFrom_succ, expressionFrom_succ, prolongs.readsNext readable, prolongs.varName]
      obtain ⟨inside, below⟩ := readable
      rw [prolongs.node id inside]
      refine congrArg (Node.assemble _ · _) (List.map_congr_left fun lower followed => ?_)
      exact induction (below lower followed)

/-- What can be read reads the same among more nodes. -/
theorem readsAs (readable : before.IsReadable id) : before.ReadsAs after id id :=
  ⟨prolongs.isReadable readable, prolongs.expressionFrom readable⟩

end Prolongs

end ScriptTree
end NwScript
