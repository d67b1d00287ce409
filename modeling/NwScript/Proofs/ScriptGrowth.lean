import NwScript.Proofs.RecoverySteps
import NwScript.Proofs.VariableNames

/-!
# Growth of a script tree

While statements are recovered, nodes and variables are added, bodies take statements, and an
intermediate value is at most used up.  What an expression says thus stays true.  Default arguments are
left out of no call whose action has none.
-/

namespace NwScript

/-- A call of an action that has no default arguments, or no call of an action. -/
def Node.HasNoDefaults (catalog : ActionCatalog) : Node → Prop
  | .action id _ _ => ∀ signature, catalog.find? id = some signature →
      ∀ value ∈ signature.defaults, value = none
  | _ => True

/-- A body with one more statement. -/
def Body.adding (child : NodeId) (body : Body) : Body :=
  { body with children := body.children ++ [child] }

namespace ScriptTree

/-- Nodes that own no statements stay as they are, and variables stay but for being used up. -/
structure Grows (before after : ScriptTree) : Prop where
  /-- No node is lost. -/
  size : before.size ≤ after.size
  /-- Nodes without a body stay as they are. -/
  node : ∀ {id : NodeId}, id < before.size → (before.node id).body? = none →
    after.node id = before.node id
  /-- No variable is lost. -/
  count : before.vars.size ≤ after.vars.size
  /-- Variables are at most used up. -/
  var : ∀ {id : VarId} {entry : Variable}, before.vars.get? id = some entry →
    ∃ consumed, after.vars.get? id = some { entry with consumed }

section Grows

variable {before middle after tree : ScriptTree}

theorem Grows.refl (tree : ScriptTree) : tree.Grows tree :=
  ⟨Nat.le_refl _, fun _ _ => rfl, Nat.le_refl _, fun found => ⟨_, found⟩⟩

theorem Grows.trans (first : before.Grows middle) (second : middle.Grows after) :
    before.Grows after where
  size := Nat.le_trans first.size second.size
  node := by
    intro id old bare
    have same := first.node old bare
    exact (second.node (Nat.lt_of_lt_of_le old first.size) (same ▸ bare)).trans same
  count := Nat.le_trans first.count second.count
  var := by
    intro id entry found
    obtain ⟨_, between⟩ := first.var found
    obtain ⟨consumed, last⟩ := second.var between
    exact ⟨consumed, last⟩

theorem Grows.kind (grows : before.Grows after) {id : VarId} (old : id < before.vars.size) :
    after.vars.kind id = before.vars.kind id := by
  have known : before.vars.get? id = some before.vars.vars[id] := Array.getElem?_eq_getElem old
  obtain ⟨consumed, kept⟩ := grows.var known
  rw [VarTable.kind, VarTable.kind, known, kept]

theorem exists_setParents_eq (tree : ScriptTree) (ids : List NodeId) (parent : Option NodeId) :
    ∃ parents, ids.foldl (fun tree id => tree.setParent id parent) tree = { tree with parents } := by
  induction ids generalizing tree with
  | nil => exact ⟨tree.parents, rfl⟩
  | cons id ids induction =>
      obtain ⟨parents, same⟩ := induction (tree.setParent id parent)
      exact ⟨parents, same⟩

/-- Adding a node changes the nodes and the links between them alone. -/
theorem exists_add_eq (tree : ScriptTree) (node : Node) :
    ∃ parents, (tree.add node).1 = { tree with nodes := tree.nodes.push node, parents } := by
  obtain ⟨parents, same⟩ := tree.exists_setParents_eq node.operands (some tree.size)
  exact ⟨parents.push none, by rw [add]; dsimp only; rw [same]⟩

@[simp]
theorem vars_add (tree : ScriptTree) (node : Node) : (tree.add node).1.vars = tree.vars := by
  obtain ⟨parents, same⟩ := tree.exists_add_eq node
  rw [same]

@[simp]
theorem kind_add (tree : ScriptTree) (node : Node) : (tree.add node).1.kind = tree.kind := by
  obtain ⟨parents, same⟩ := tree.exists_add_eq node
  rw [same]

theorem Grows.add (tree : ScriptTree) (node : Node) : tree.Grows (tree.add node).1 where
  size := by simp
  node := fun old _ => node_add_of_lt node old
  count := by simp
  var := by
    intro id entry found
    exact ⟨_, by rw [vars_add, found]⟩

/-- A change of the variables alone that adds some or uses some up. -/
theorem Grows.of_vars {vars : VarTable} (count : tree.vars.size ≤ vars.size)
    (kept : ∀ {id : VarId} {entry : Variable}, tree.vars.get? id = some entry →
      ∃ consumed, vars.get? id = some { entry with consumed }) :
    tree.Grows { tree with vars } :=
  ⟨Nat.le_refl _, fun _ _ => rfl, count, kept⟩

theorem Grows.addVar (tree : ScriptTree) (entry : Variable) :
    tree.Grows { tree with vars := (tree.vars.add entry).1 } := by
  refine .of_vars (by simp) fun {id found} known => ?_
  have old : id < tree.vars.size := by
    rw [VarTable.get?, Array.getElem?_eq_some_iff] at known
    exact known.1
  exact ⟨_, by rw [VarTable.get?_add_of_lt entry old, known]⟩

theorem Grows.useUp (tree : ScriptTree) (var : VarId) :
    tree.Grows (tree.modifyVar var fun entry => { entry with consumed := true }) := by
  refine .of_vars (by simp) fun {id found} known => ?_
  rw [VarTable.get?] at known
  rw [VarTable.get?, VarTable.modify, Array.getElem?_modify, known]
  by_cases same : var = id
  · exact ⟨true, by rw [if_pos same]; rfl⟩
  · exact ⟨found.consumed, by rw [if_neg same]⟩

end Grows

section Changes

variable {tree : ScriptTree}

theorem node_of_le {id : NodeId} (outside : tree.size ≤ id) :
    tree.node id = .placeholder Node.unknownOperand := by
  rw [ScriptTree.node, Array.getD_eq_getD_getElem?, Array.getElem?_eq_none outside]
  rfl

/-- Only a node of the tree is anything else. -/
theorem lt_of_node {id : NodeId} {node : Node} (here : tree.node id = node)
    (proper : node ≠ .placeholder Node.unknownOperand) : id < tree.size := by
  by_contra outside
  exact proper (here.symm.trans (node_of_le (Nat.not_lt.mp outside)))

theorem hasNoDefaults_of_lt {catalog : ActionCatalog}
    (plain : ∀ id < tree.size, (tree.node id).HasNoDefaults catalog) (id : NodeId) :
    (tree.node id).HasNoDefaults catalog := by
  by_cases inside : id < tree.size
  · exact plain id inside
  · rw [node_of_le (Nat.not_lt.mp inside)]
    trivial

theorem lt_of_body? {id : NodeId} (owns : (tree.node id).body?.isSome) : id < tree.size := by
  by_contra outside
  rw [node_of_le (Nat.not_lt.mp outside)] at owns
  exact absurd owns Bool.false_ne_true

theorem node_modify_of_ne {id other : NodeId} (different : id ≠ other) (change : Node → Node) :
    (tree.modify id change).node other = tree.node other := by
  simp [ScriptTree.node, modify, Array.getD_eq_getD_getElem?, Array.getElem?_modify, different]

theorem node_modify_self {id : NodeId} (inside : id < tree.size) (change : Node → Node) :
    (tree.modify id change).node id = change (tree.node id) := by
  have bound : id < tree.nodes.size := inside
  simp [ScriptTree.node, modify, Array.getD_eq_getD_getElem?, bound, Array.getElem_modify_self]

/-- Appending a statement changes nothing but the body that takes it. -/
theorem node_append (tree : ScriptTree) (parent child id : NodeId) :
    (tree.append parent child).node id =
      if id = parent then (tree.node parent).mapBody (Body.adding child) else tree.node id := by
  have linked : ∀ changed : ScriptTree,
      (changed.setParent child (some parent)).node id = changed.node id := fun _ => rfl
  unfold append
  by_cases owns : (tree.node parent).body?.isSome
  · rw [if_pos owns, linked]
    by_cases same : id = parent
    · subst same
      rw [if_pos rfl, node_modify_self (lt_of_body? owns)]
      rfl
    · rw [if_neg same, node_modify_of_ne (Ne.symm same)]
  · rw [if_neg owns]
    split
    · rename_i same
      subst same
      have no_body : (tree.node id).body? = none := by simpa using owns
      revert no_body
      cases tree.node id <;> simp [Node.body?, Node.mapBody]
    · rfl

@[simp]
theorem vars_append (tree : ScriptTree) (parent child : NodeId) :
    (tree.append parent child).vars = tree.vars := by
  unfold append
  split <;> rfl

@[simp]
theorem kind_append (tree : ScriptTree) (parent child : NodeId) :
    (tree.append parent child).kind = tree.kind := by
  unfold append
  split <;> rfl

@[simp]
theorem size_append (tree : ScriptTree) (parent child : NodeId) :
    (tree.append parent child).size = tree.size := by
  unfold append
  split
  · rw [size_setParent, size_modify]
  · rfl

theorem Grows.append (tree : ScriptTree) (parent child : NodeId) :
    tree.Grows (tree.append parent child) where
  size := by simp
  node := by
    intro id _ bare
    rw [node_append]
    split
    · rename_i same
      subst same
      revert bare
      cases tree.node id <;> simp [Node.body?, Node.mapBody]
    · rfl
  count := by simp
  var := fun known => ⟨_, by rw [vars_append, known]⟩

end Changes

section Defaults

variable {tree : ScriptTree} {catalog : ActionCatalog}

/-- Cut some calls one after another. -/
def cutAll (tree : ScriptTree) (cuts : List (NodeId × Nat)) : ScriptTree :=
  cuts.foldl (fun tree cut => tree.modify cut.1 (keepArguments cut.2)) tree

/-- The cuts that leave out default arguments. -/
def cuts (tree : ScriptTree) (catalog : ActionCatalog) : List (NodeId × Nat) :=
  tree.walk.filterMap fun id => (tree.keptArguments? catalog id).map fun kept => (id, kept)

theorem omitDefaults_eq_cutAll (tree : ScriptTree) (catalog : ActionCatalog) :
    tree.omitDefaults catalog = tree.cutAll (tree.cuts catalog) := rfl

/-- Cuts change nothing but nodes. -/
theorem cutAll_eq_nodes (tree : ScriptTree) (cuts : List (NodeId × Nat)) :
    tree.cutAll cuts = { tree with nodes := (tree.cutAll cuts).nodes } := by
  induction cuts generalizing tree with
  | nil => rfl
  | cons cut cuts induction => exact (induction (tree.modify cut.1 (keepArguments cut.2))).trans rfl

theorem omitDefaults_eq_nodes (tree : ScriptTree) (catalog : ActionCatalog) :
    tree.omitDefaults catalog = { tree with nodes := (tree.omitDefaults catalog).nodes } :=
  tree.cutAll_eq_nodes (tree.cuts catalog)

theorem keptFrom_eq_length {defaults : List (Option String)} (none : ∀ value ∈ defaults, value = none)
    (index : Nat) (arguments : List NodeId) :
    tree.keptFrom defaults index arguments = arguments.length := by
  have no_default : ∀ index argument, tree.isDefault defaults index argument = false := by
    intro index argument
    have missing : defaults[index]?.join = Option.none := by
      cases found : defaults[index]? with
      | none => rfl
      | some value =>
          rw [none value (List.mem_of_getElem? found)]
          rfl
    rw [isDefault, missing]
    simp
  induction arguments generalizing index with
  | nil => rfl
  | cons argument arguments induction =>
      rw [keptFrom, induction]
      cases arguments with
      | nil => simp [no_default]
      | cons other arguments => rfl

/-- Where no called action has default arguments, none is left out. -/
theorem omitDefaults_eq_self (plain : ∀ id, (tree.node id).HasNoDefaults catalog) :
    tree.omitDefaults catalog = tree := by
  have kept : ∀ cut : NodeId × Nat, tree.keptArguments? catalog cut.1 = some cut.2 →
      tree.modify cut.1 (keepArguments cut.2) = tree := by
    rintro ⟨id, count⟩ found
    apply modify_eq_self
    have here := plain id
    rw [keptArguments?] at found
    cases node : tree.node id with
    | action action name arguments =>
        rw [node] at found here
        obtain ⟨signature, known, same⟩ := Option.map_eq_some_iff.mp found
        rw [keptFrom_eq_length (here signature known)] at same
        rw [keepArguments, ← same, List.take_length]
    | _ => rfl
  have all : ∀ cuts : List (NodeId × Nat),
      (∀ cut ∈ cuts, tree.keptArguments? catalog cut.1 = some cut.2) → tree.cutAll cuts = tree := by
    intro cuts
    induction cuts with
    | nil => exact fun _ => rfl
    | cons cut cuts induction =>
        intro listed
        rw [cutAll, List.foldl_cons, kept cut (listed cut List.mem_cons_self)]
        exact induction fun other later => listed other (List.mem_cons_of_mem _ later)
  refine all _ fun cut listed => ?_
  obtain ⟨id, _, found⟩ := List.mem_filterMap.mp listed
  obtain ⟨count, kept, rfl⟩ := Option.map_eq_some_iff.mp found
  exact kept

/-- Naming the variables changes no node. -/
def named (tree : ScriptTree) : ScriptTree :=
  { tree with vars := tree.vars.assignNames }

end Defaults

end ScriptTree

/-- A recovery that begins has called no action. -/
theorem RecoveryInput.IsFresh.hasNoDefaults {recovery : Recovery} {body : Body}
    (fresh : RecoveryInput.IsFresh recovery body) (catalog : ActionCatalog) (id : NodeId) :
    (recovery.tree.node id).HasNoDefaults catalog := by
  refine ScriptTree.hasNoDefaults_of_lt (fun id inside => ?_) id
  rw [ScriptTree.size, fresh.nodes] at inside
  obtain rfl : id = 0 := by simpa using inside
  simp [ScriptTree.node, fresh.nodes, Node.HasNoDefaults]

/-- Where no called action has default arguments, only the variables are named at the end. -/
theorem RecoveryInput.finish_eq_named {input : RecoveryInput} {tree : ScriptTree}
    (plain : ∀ id, (tree.node id).HasNoDefaults input.catalog) : input.finish tree = tree.named := by
  unfold RecoveryInput.finish
  split
  · exact ScriptTree.omitDefaults_eq_self plain
  · rfl

end NwScript
