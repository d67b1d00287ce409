import NwScript.Proofs.SoundRecovery

/-!
# Kept scopes

Most steps of a recovery neither open nor close a scope.  They leave alone what the scopes read of
the nodes: the kinds, the byte ranges and the ends of else branches.  What they attach to a body is
no statement with a scope of its own.
-/

namespace NwScript

namespace Node

/-- What the scopes read of a node: its kind, where its statements lie and where its else branch
ends. -/
def shape : Node → Node
  | branch _ body skip => branch none (body.holding []) skip
  | node => node.outline

/-- A node that is opened where it begins; only cases are opened later. -/
def isConstruct : Node → Bool
  | branch _ _ _ | otherwise _ | whileLoop _ _ | doLoop _ _ | switch _ _ | closure _ => true
  | _ => false

section Shapes

variable {node other : Node}

theorem shape_holding (children : List NodeId) (node : Node) :
    (node.holding children).shape = node.shape := by
  cases node <;> rfl

theorem outline_shape (node : Node) : node.shape.outline = node.outline := by
  cases node <;> rfl

/-- Nodes of one shape have one outline. -/
theorem outline_congr (same : node.shape = other.shape) : node.outline = other.outline := by
  rw [← outline_shape, same, outline_shape]

theorem isConstruct_outline (node : Node) : node.outline.isConstruct = node.isConstruct := by
  cases node <;> rfl

theorem isConstruct_congr (same : node.shape = other.shape) : node.isConstruct = other.isConstruct :=
  congr_outline isConstruct_outline (outline_congr same)

end Shapes

end Node

namespace ScriptTree

/-- Nodes keep their shapes, and the bodies of those numbered below `base` take in no statement with a
scope of its own. -/
structure Retains (base : Nat) (before after : ScriptTree) : Prop where
  /-- No node is lost. -/
  size : before.size ≤ after.size
  /-- Nodes keep their shapes. -/
  shape : ∀ id < before.size, (after.node id).shape = (before.node id).shape
  /-- Statements are old ones or have no scope of their own. -/
  child : ∀ holder < base, ∀ child ∈ after.children holder,
    child ∈ before.children holder ∨ child < after.size ∧ (after.node child).isConstruct = false

namespace Retains

variable {base fewer : Nat} {before middle after tree : ScriptTree}

theorem refl (base : Nat) (tree : ScriptTree) : Retains base tree tree :=
  ⟨Nat.le_refl _, fun _ _ => rfl, fun _ _ _ => .inl⟩

theorem trans (first : Retains base before middle) (second : Retains base middle after) :
    Retains base before after where
  size := Nat.le_trans first.size second.size
  shape := fun id inside =>
    (second.shape id (Nat.lt_of_lt_of_le inside first.size)).trans (first.shape id inside)
  child := by
    intro holder below child held
    rcases second.child holder below child held with there | new
    · refine (first.child holder below child there).imp_right fun added => ?_
      obtain ⟨inside, plain⟩ := added
      rw [Node.isConstruct_congr (second.shape child inside)]
      exact ⟨Nat.lt_of_lt_of_le inside second.size, plain⟩
    · exact .inr new

theorem mono (retains : Retains base before after) (less : fewer ≤ base) :
    Retains fewer before after :=
  { retains with child := fun holder below => retains.child holder (Nat.lt_of_lt_of_le below less) }

/-- Trees with the same nodes. -/
theorem of_nodes (same : after.nodes = before.nodes) : Retains base before after := by
  have node : ∀ id, after.node id = before.node id := fun id => by
    rw [ScriptTree.node, ScriptTree.node, same]
  refine ⟨by rw [ScriptTree.size, ScriptTree.size, same], fun id _ => by rw [node], fun holder _ child held => .inl ?_⟩
  rwa [children_eq, node] at held

theorem add (inside : base ≤ tree.size) (node : Node) : Retains base tree (tree.add node).1 := by
  refine ⟨by simp, fun id old => by rw [node_add_of_lt node old], fun holder below child held => ?_⟩
  rw [children_eq, node_add_of_lt node (Nat.lt_of_lt_of_le below inside)] at held
  exact .inl held

/-- A node is changed that keeps its shape and its statements. -/
theorem modify {id : NodeId} {change : Node → Node}
    (shape : (change (tree.node id)).shape = (tree.node id).shape)
    (statements : (change (tree.node id)).statements = (tree.node id).statements) :
    Retains base tree (tree.modify id change) := by
  refine ⟨by simp, fun other _ => ?_, fun holder _ child held => .inl ?_⟩
  · rcases node_modify_cases tree id other change with kept | ⟨rfl, changed⟩
    · rw [kept]
    · rw [changed, shape]
  · rw [children_eq] at held ⊢
    rcases node_modify_cases tree id holder change with kept | ⟨rfl, changed⟩
    · rwa [kept] at held
    · rwa [changed, statements] at held

/-- The statements of one body change. -/
theorem modifyBody (tree : ScriptTree) (parent : NodeId) (change : List NodeId → List NodeId)
    (kept : parent < base → ∀ child ∈ change (tree.children parent),
      child ∈ tree.children parent ∨ child < tree.size ∧ (tree.node child).isConstruct = false) :
    Retains base tree (tree.modify parent (Node.mapBody fun body =>
      { body with children := change body.children })) := by
  have nodes := (node_modifyBody tree parent fun body =>
    { body with children := change body.children }).trans
      (congrArg (Function.update tree.node parent) (mapBody_children change rfl))
  have shapes : ∀ id, ((tree.modify parent (Node.mapBody fun body =>
      { body with children := change body.children })).node id).shape = (tree.node id).shape := by
    intro id
    rw [nodes, Function.update_apply]
    split
    · rename_i same
      rw [Node.shape_holding, same]
    · rfl
  refine ⟨by simp, fun id _ => shapes id, fun holder below child held => ?_⟩
  rw [children_eq, nodes, Function.update_apply] at held
  split at held
  · rename_i same
    subst same
    have owns : (tree.node holder).body?.isSome := by
      have owned := Node.owns_of_mem_statements held
      rwa [Node.body?_mapBody, Option.isSome_map] at owned
    rw [Node.statements_holding owns] at held
    refine (kept below child held).imp_right fun new => ?_
    rw [Node.isConstruct_congr (shapes child), size_modify]
    exact new
  · exact .inl held

theorem setParent (retains : Retains base before after) (id : NodeId) (owner : Option NodeId) :
    Retains base before (after.setParent id owner) :=
  ⟨retains.size, retains.shape, retains.child⟩

theorem detach (tree : ScriptTree) (child : NodeId) : Retains base tree (tree.detach child).1 := by
  unfold ScriptTree.detach
  split
  · rename_i parent index _
    exact (modifyBody tree parent (fun children => children.eraseIdx index) fun _ _ listed =>
      .inl (List.mem_of_mem_eraseIdx listed)).setParent _ _
  · exact .refl _ _

theorem append {parent child : NodeId}
    (plain : parent < base → child < tree.size ∧ (tree.node child).isConstruct = false) :
    Retains base tree (tree.append parent child) := by
  unfold ScriptTree.append
  split
  · refine (modifyBody tree parent (fun children => children ++ [child])
      fun below other listed => ?_).setParent _ _
    rcases List.mem_append.mp listed with old | new
    · exact .inl old
    · rw [List.mem_singleton.mp new]
      exact .inr (plain below)
  · exact .refl _ _

theorem insert {parent index child : NodeId}
    (plain : parent < base → child < tree.size ∧ (tree.node child).isConstruct = false) :
    Retains base tree (tree.insert parent index child) := by
  unfold ScriptTree.insert
  split
  · refine (modifyBody tree parent
      (fun children => children.take index ++ child :: children.drop index)
      fun below other listed => ?_).setParent _ _
    rcases List.mem_append.mp listed with front | back
    · exact .inl (List.mem_of_mem_take front)
    · rcases List.mem_cons.mp back with rfl | back
      · exact .inr (plain below)
      · exact .inl (List.mem_of_mem_drop back)
  · exact .refl _ _

theorem replace {old new : NodeId}
    (plain : new < tree.size ∧ (tree.node new).isConstruct = false) :
    Retains base tree (tree.replace old new).1 := by
  unfold ScriptTree.replace
  split
  · rename_i parent index _
    refine ((modifyBody tree parent (fun children => children.set index new)
      fun _ child listed => ?_).setParent _ _).setParent _ _
    rcases List.mem_or_eq_of_mem_set listed with there | rfl
    · exact .inl there
    · exact .inr plain
  · exact .refl _ _

/-- Changes of one kind one after another. -/
theorem foldl {α : Type} {change : ScriptTree → α → ScriptTree}
    (each : ∀ tree item, Retains base tree (change tree item)) (items : List α)
    (tree : ScriptTree) : Retains base tree (items.foldl change tree) := by
  induction items generalizing tree with
  | nil => exact .refl _ _
  | cons item items induction => exact (each tree item).trans (induction _)

/-- Statements move into a body that is not among the first ones. -/
theorem move {host : NodeId} (beyond : base ≤ host) (statements : List NodeId)
    (tree : ScriptTree) : Retains base tree (statements.foldl (ScriptTree.move host) tree) :=
  foldl (fun tree statement => (detach tree statement).trans
    (append fun below => absurd below (Nat.not_lt.mpr beyond))) statements tree

end Retains

end ScriptTree

namespace Recovery

/-- The same scopes are open, and their nodes are as they were. -/
structure Keeps (before after : Recovery) : Prop where
  /-- The same scopes are open. -/
  scopes : after.scopes = before.scopes
  /-- Nodes keep their shapes. -/
  tree : before.tree.Retains before.tree.size after.tree

theorem Keeps.refl (recovery : Recovery) : recovery.Keeps recovery :=
  ⟨rfl, .refl _ _⟩

theorem Keeps.trans {before middle after : Recovery} (first : before.Keeps middle)
    (second : middle.Keeps after) : before.Keeps after :=
  ⟨second.scopes.trans first.scopes, first.tree.trans (second.tree.mono first.tree.size)⟩

end Recovery

namespace Recover

open ScriptTree

variable {α β : Type}

/-- A step neither opens nor closes a scope. -/
def KeepsScopes (step : Recover α) : Prop :=
  ∀ before value after, Runs step before value after → before.Keeps after

section Steps

variable {step : Recover α} {next : α → Recover β}

theorem KeepsScopes.bind (first : KeepsScopes step) (second : ∀ value, KeepsScopes (next value)) :
    KeepsScopes (step >>= next) := by
  intro before value after runs
  obtain ⟨_, _, begun, ended⟩ := runs.split
  exact (first _ _ _ begun).trans (second _ _ _ _ ended)

theorem KeepsScopes.done (value : α) : KeepsScopes (pure value) := by
  rintro before _ _ ⟨⟩
  exact .refl _

theorem KeepsScopes.fail (fault : Fault) : KeepsScopes (throw fault : Recover α) := by
  rintro _ _ _ ⟨⟩

theorem KeepsScopes.reads {next : Recovery → Recover β} (rest : ∀ recovery, KeepsScopes (next recovery)) :
    KeepsScopes (get >>= next) :=
  fun _ _ _ runs => rest _ _ _ _ (runs.rest (.reads _))

theorem KeepsScopes.lift {outcome : Except Fault α} (rest : ∀ value, KeepsScopes (next value)) :
    KeepsScopes ((liftM outcome : Recover α) >>= next) := by
  intro before value after runs
  cases done : outcome with
  | ok found => exact rest found _ _ _ (runs.rest (.lift done _))
  | error fault =>
      rw [done] at runs
      cases runs

/-- The state changes without running further steps. -/
theorem KeepsScopes.changes {change : Recovery → Recovery}
    (kept : ∀ recovery : Recovery, recovery.Keeps (change recovery)) : KeepsScopes (modify change) := by
  rintro before _ _ ⟨⟩
  exact kept before

/-- Something other than the scopes and the tree is recorded. -/
theorem KeepsScopes.notes {change : Recovery → Recovery}
    (scopes : ∀ recovery, (change recovery).scopes = recovery.scopes)
    (tree : ∀ recovery, (change recovery).tree = recovery.tree) : KeepsScopes (modify change) :=
  .changes fun recovery => ⟨scopes recovery, by rw [tree]; exact .refl _ _⟩

theorem addNode_keeps (node : Node) : KeepsScopes (addNode node) := by
  rintro before _ _ ⟨⟩
  exact ⟨rfl, .add (Nat.le_refl _) node⟩

end Steps

end Recover
end NwScript
