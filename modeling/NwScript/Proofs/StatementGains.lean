import NwScript.Proofs.ScriptGrowth

/-!
# Statements that a body gains

While the code of a body is replayed, that body gains statements and other nodes are only added.  So
what was written before into other bodies stays as it is, and what several stretches of code add to one
body adds up.
-/

namespace NwScript

/-- A body with more statements. -/
def Body.addingAll (children : List NodeId) (body : Body) : Body :=
  { body with children := body.children ++ children }

namespace Node

theorem mapBody_addingAll_nil (node : Node) : node.mapBody (Body.addingAll []) = node := by
  cases node <;> simp [mapBody, Body.addingAll]

theorem mapBody_addingAll_append (node : Node) (first second : List NodeId) :
    (node.mapBody (Body.addingAll first)).mapBody (Body.addingAll second) =
      node.mapBody (Body.addingAll (first ++ second)) := by
  cases node <;> simp [mapBody, Body.addingAll, List.append_assoc]

end Node

namespace ScriptTree

/-- One node gains statements, and the other nodes that were there stay as they are. -/
structure Gains (before after : ScriptTree) (parent : NodeId) (children : List NodeId) : Prop where
  /-- No node is lost. -/
  size : before.size ≤ after.size
  /-- Only the parent changes. -/
  node : ∀ {id : NodeId}, id < before.size → after.node id =
    if id = parent then (before.node id).mapBody (Body.addingAll children) else before.node id
  /-- No variable is lost. -/
  count : before.vars.size ≤ after.vars.size
  /-- The signature stays. -/
  signature : after.signature = before.signature

section Gains

variable {before middle after tree : ScriptTree} {parent child : NodeId}
  {children more : List NodeId}

theorem Gains.refl (tree : ScriptTree) (parent : NodeId) : tree.Gains tree parent [] where
  size := Nat.le_refl _
  node := by
    intro id _
    rw [Node.mapBody_addingAll_nil, ite_self]
  count := Nat.le_refl _
  signature := rfl

theorem Gains.trans (first : before.Gains middle parent children)
    (second : middle.Gains after parent more) : before.Gains after parent (children ++ more) where
  size := Nat.le_trans first.size second.size
  node := by
    intro id old
    rw [second.node (Nat.lt_of_lt_of_le old first.size), first.node old]
    by_cases same : id = parent
    · simp only [if_pos same, Node.mapBody_addingAll_append]
    · simp only [if_neg same]
  count := Nat.le_trans first.count second.count
  signature := second.signature.trans first.signature

/-- What happens to the statements of a new node does not matter. -/
theorem Gains.inner (first : before.Gains middle parent children) {inner : NodeId}
    (second : middle.Gains after inner more) (new : before.size ≤ inner) :
    before.Gains after parent children where
  size := Nat.le_trans first.size second.size
  node := by
    intro id old
    have other : id ≠ inner := Nat.ne_of_lt (Nat.lt_of_lt_of_le old new)
    rw [second.node (Nat.lt_of_lt_of_le old first.size), if_neg other, first.node old]
  count := Nat.le_trans first.count second.count
  signature := second.signature.trans first.signature

theorem Gains.add (tree : ScriptTree) (node : Node) (parent : NodeId) :
    tree.Gains (tree.add node).1 parent [] where
  size := by simp
  node := by
    intro id old
    rw [Node.mapBody_addingAll_nil, ite_self, node_add_of_lt node old]
  count := by simp
  signature := by
    obtain ⟨parents, same⟩ := tree.exists_add_eq node
    rw [same]

theorem Gains.ofVars {vars : VarTable} (count : tree.vars.size ≤ vars.size) (parent : NodeId) :
    tree.Gains { tree with vars } parent [] where
  size := Nat.le_refl _
  node := by
    intro id _
    rw [Node.mapBody_addingAll_nil, ite_self]
    rfl
  count := count
  signature := rfl

theorem Gains.append (tree : ScriptTree) (parent child : NodeId) :
    tree.Gains (tree.append parent child) parent [child] where
  size := by simp
  node := by
    intro id _
    rw [node_append]
    by_cases same : id = parent
    · subst same
      rfl
    · rw [if_neg same, if_neg same]
  count := by simp
  signature := by
    unfold ScriptTree.append
    split <;> rfl

/-- A new node may change. -/
theorem Gains.modify (gains : before.Gains middle parent children) {id : NodeId}
    (new : before.size ≤ id) (change : Node → Node) :
    before.Gains (middle.modify id change) parent children where
  size := by
    rw [size_modify]
    exact gains.size
  node := by
    intro other old
    have different : id ≠ other := Nat.ne_of_gt (Nat.lt_of_lt_of_le old new)
    rw [node_modify_of_ne different, gains.node old]
  count := gains.count
  signature := gains.signature

theorem node_setParent (tree : ScriptTree) (id other : NodeId) (owner : Option NodeId) :
    (tree.setParent id owner).node other = tree.node other := rfl

/-- Links between nodes do not matter. -/
theorem Gains.setParent (gains : before.Gains middle parent children) (id : NodeId)
    (owner : Option NodeId) : before.Gains (middle.setParent id owner) parent children where
  size := by
    rw [size_setParent]
    exact gains.size
  node := by
    intro other old
    rw [node_setParent, gains.node old]
  count := gains.count
  signature := gains.signature

theorem Gains.node_of_ne (gains : before.Gains after parent children) {id : NodeId}
    (old : id < before.size) (other : id ≠ parent) : after.node id = before.node id := by
  rw [gains.node old, if_neg other]

theorem Gains.node_self (gains : before.Gains after parent children) (old : parent < before.size) :
    after.node parent = (before.node parent).mapBody (Body.addingAll children) := by
  rw [gains.node old, if_pos rfl]

/-- The limits of bodies stay. -/
theorem Gains.limit (gains : before.Gains after parent children) {id : NodeId}
    (old : id < before.size) :
    (after.node id).body?.map Body.limit = (before.node id).body?.map Body.limit := by
  rw [gains.node old]
  split
  · rw [Node.body?_mapBody, Option.map_map]
    rfl
  · rfl

end Gains

/-- No node calls an action that has default arguments. -/
def Uncut (catalog : ActionCatalog) (tree : ScriptTree) : Prop :=
  ∀ id, (tree.node id).HasNoDefaults catalog

section Uncut

variable {catalog : ActionCatalog} {tree : ScriptTree}

theorem Uncut.add (uncut : tree.Uncut catalog) {node : Node} (plain : node.HasNoDefaults catalog) :
    (tree.add node).1.Uncut catalog := by
  refine hasNoDefaults_of_lt fun id inside => ?_
  rw [size_add] at inside
  rcases Nat.lt_succ_iff_lt_or_eq.mp inside with old | rfl
  · rw [node_add_of_lt node old]
    exact uncut id
  · rw [node_add_self]
    exact plain

theorem Uncut.append (uncut : tree.Uncut catalog) (parent child : NodeId) :
    (tree.append parent child).Uncut catalog := by
  intro id
  rw [node_append]
  split
  · have plain := uncut parent
    revert plain
    cases tree.node parent <;> exact fun plain => plain
  · exact uncut id

theorem Uncut.modify (uncut : tree.Uncut catalog) {id : NodeId} {change : Node → Node}
    (plain : (change (tree.node id)).HasNoDefaults catalog) : (tree.modify id change).Uncut catalog := by
  intro other
  by_cases same : id = other
  · subst same
    by_cases inside : id < tree.size
    · rw [node_modify_self inside]
      exact plain
    · rw [node_of_le (by rw [size_modify]; exact Nat.not_lt.mp inside)]
      trivial
  · rw [node_modify_of_ne same]
    exact uncut other

end Uncut

/-- A call of an action with a literal, which comes right before it. -/
def calling (tree : ScriptTree) (action : Nat) (name : String) (value : Constant) : ScriptTree :=
  ((tree.add (.literal value)).1.add (.action action name [tree.size])).1

/-- A new statement at the end of a body. -/
def stating (tree : ScriptTree) (parent : NodeId) (node : Node) : ScriptTree :=
  (tree.add node).1.append parent tree.size

section Statements

variable (tree : ScriptTree) (action : Nat) (name : String) (value : Constant) (parent : NodeId)
  (node : Node)

@[simp]
theorem size_calling : (tree.calling action name value).size = tree.size + 2 := by
  simp [calling]

@[simp]
theorem size_stating : (tree.stating parent node).size = tree.size + 1 := by
  simp [stating]

@[simp]
theorem vars_calling : (tree.calling action name value).vars = tree.vars := by
  simp [calling]

@[simp]
theorem vars_stating : (tree.stating parent node).vars = tree.vars := by
  simp [stating]

theorem gains_calling : tree.Gains (tree.calling action name value) parent [] :=
  (Gains.add _ _ _).trans (.add _ _ _)

theorem gains_stating : tree.Gains (tree.stating parent node) parent [tree.size] :=
  (Gains.add _ _ _).trans (.append _ _ _)

theorem node_calling_literal :
    (tree.calling action name value).node tree.size = .literal value := by
  rw [calling, node_add_of_lt _ (by simp), node_add_self]

theorem node_calling_call : (tree.calling action name value).node (tree.size + 1) =
    .action action name [tree.size] := by
  have added := node_add_self (tree.add (.literal value)).1 (.action action name [tree.size])
  rwa [size_add] at added

variable {tree parent} in
theorem node_stating_self (inside : parent < tree.size) :
    (tree.stating parent node).node tree.size = node := by
  rw [stating, node_append, if_neg (Nat.ne_of_gt inside), node_add_self]

variable {tree parent} in
theorem node_stating_of_ne {id : NodeId} (old : id < tree.size) (other : id ≠ parent) :
    (tree.stating parent node).node id = tree.node id := by
  rw [stating, node_append, if_neg other, node_add_of_lt node old]

variable {tree} in
theorem Uncut.calling {catalog : ActionCatalog} (uncut : tree.Uncut catalog)
    (plain : (Node.action action name [tree.size]).HasNoDefaults catalog) :
    (tree.calling action name value).Uncut catalog :=
  have literal : (Node.literal value).HasNoDefaults catalog := trivial
  (uncut.add literal).add plain

variable {tree node} in
theorem Uncut.stating {catalog : ActionCatalog} (uncut : tree.Uncut catalog)
    (plain : node.HasNoDefaults catalog) : (tree.stating parent node).Uncut catalog :=
  (uncut.add plain).append _ _

end Statements

end ScriptTree
end NwScript
