import Mathlib.Logic.Function.Basic
import NwScript.Proofs.StatementGains

/-!
# Edits of a tree

What attaching, detaching and replacing a statement do to the nodes of a tree and to the links from
nodes to their holders.  Every edit changes both at a few numbers and nowhere else, so the effects are
written as updates of functions.
-/

namespace NwScript

namespace Body

/-- The body with other child statements. -/
def holding (children : List NodeId) (body : Body) : Body :=
  { body with children }

end Body

namespace Node

/-- Child statements of a node. -/
def statements (node : Node) : List NodeId :=
  (node.body?.map (·.children)).getD []

/-- The node with other child statements, if it owns any. -/
abbrev holding (children : List NodeId) (node : Node) : Node :=
  node.mapBody (Body.holding children)

@[simp]
theorem statements_holding {node : Node} (owns : node.body?.isSome) (children : List NodeId) :
    (node.holding children).statements = children := by
  obtain ⟨body, found⟩ := Option.isSome_iff_exists.mp owns
  simp [statements, found, Body.holding]

theorem statements_eq_nil {node : Node} (bare : node.body? = none) : node.statements = [] := by
  simp [statements, bare]

theorem owns_of_mem_statements {node : Node} {child : NodeId} (held : child ∈ node.statements) :
    node.body?.isSome := by
  cases found : node.body? with
  | none => simp [statements_eq_nil found] at held
  | some body => rfl

theorem mapBody_eq_self {node : Node} (bare : node.body? = none) (change : Body → Body) :
    node.mapBody change = node := by
  cases node <;> first | rfl | cases bare

theorem mapBody_congr {node : Node} {first second : Body → Body}
    (same : ∀ body, node.body? = some body → first body = second body) :
    node.mapBody first = node.mapBody second := by
  cases node <;> simp_all [mapBody, body?]

end Node

namespace ScriptTree

variable {tree : ScriptTree} {child parent : NodeId} {left right : List NodeId}

theorem children_eq (tree : ScriptTree) (id : NodeId) :
    tree.children id = (tree.node id).statements := rfl

theorem children_of_le {id : NodeId} (outside : tree.size ≤ id) : tree.children id = [] := by
  rw [children_eq, node_of_le outside]
  rfl

theorem lt_of_mem_children (held : child ∈ tree.children parent) : parent < tree.size :=
  lt_of_body? (Node.owns_of_mem_statements held)

section Changes

theorem node_modify {id : NodeId} (inside : id < tree.size) (change : Node → Node) :
    (tree.modify id change).node = Function.update tree.node id (change (tree.node id)) := by
  funext other
  by_cases same : other = id
  · subst same
    rw [Function.update_self, node_modify_self inside]
  · rw [Function.update_of_ne same, node_modify_of_ne (Ne.symm same)]

theorem node_modifyBody (tree : ScriptTree) (id : NodeId) (change : Body → Body) :
    (tree.modify id (Node.mapBody change)).node =
      Function.update tree.node id ((tree.node id).mapBody change) := by
  by_cases inside : id < tree.size
  · exact node_modify inside _
  · have outside : tree.size ≤ id := Nat.not_lt.mp inside
    funext other
    by_cases same : other = id
    · rw [same, Function.update_self, node_of_le outside, node_of_le (by simpa using outside)]
      rfl
    · rw [Function.update_of_ne same, node_modify_of_ne (Ne.symm same)]

@[simp]
theorem parent?_modify (tree : ScriptTree) (id : NodeId) (change : Node → Node) :
    (tree.modify id change).parent? = tree.parent? := rfl

@[simp]
theorem size_parents_setParent (tree : ScriptTree) (id : NodeId) (owner : Option NodeId) :
    (tree.setParent id owner).parents.size = tree.parents.size := by
  simp [setParent]

theorem parent?_setParent {id : NodeId} (inside : id < tree.parents.size) (owner : Option NodeId) :
    (tree.setParent id owner).parent? = Function.update tree.parent? id owner := by
  funext other
  by_cases same : other = id
  · subst same
    simp [setParent, parent?, inside]
  · rw [Function.update_of_ne same]
    simp [setParent, parent?, Ne.symm same]

theorem lt_of_parent? (linked : tree.parent? child = some parent) :
    child < tree.parents.size := by
  rw [parent?] at linked
  by_contra outside
  rw [Array.getElem?_eq_none (Nat.not_lt.mp outside)] at linked
  cases linked

end Changes

section Adding

theorem size_parents_foldl_setParent (tree : ScriptTree) (ids : List NodeId)
    (owner : Option NodeId) :
    (ids.foldl (fun tree id => tree.setParent id owner) tree).parents.size =
      tree.parents.size := by
  induction ids generalizing tree with
  | nil => rfl
  | cons id ids induction => rw [List.foldl_cons, induction, size_parents_setParent]

theorem parent?_foldl_setParent (ids : List NodeId) (owner : Option NodeId)
    (inside : ∀ id ∈ ids, id < tree.parents.size) (other : NodeId) :
    (ids.foldl (fun tree id => tree.setParent id owner) tree).parent? other =
      if other ∈ ids then owner else tree.parent? other := by
  induction ids generalizing tree with
  | nil => simp
  | cons id ids induction =>
      have bounded := inside id List.mem_cons_self
      rw [List.foldl_cons, induction fun later listed => by
        simpa using inside later (List.mem_cons_of_mem _ listed)]
      rw [parent?_setParent bounded]
      by_cases later : other ∈ ids
      · simp [later]
      · by_cases same : other = id
        · simp [same]
        · simp [later, same]

@[simp]
theorem size_parents_add (tree : ScriptTree) (node : Node) :
    (tree.add node).1.parents.size = tree.parents.size + 1 := by
  simp [add, size_parents_foldl_setParent]

theorem node_add (tree : ScriptTree) (node : Node) :
    (tree.add node).1.node = Function.update tree.node tree.size node := by
  funext id
  rcases Nat.lt_trichotomy id tree.size with old | rfl | beyond
  · rw [node_add_of_lt node old, Function.update_of_ne (Nat.ne_of_lt old)]
  · rw [node_add_self, Function.update_self]
  · rw [Function.update_of_ne (Nat.ne_of_gt beyond), node_of_le (Nat.le_of_lt beyond),
      node_of_le (by rw [size_add]; exact beyond)]

theorem join_getElem?_push_none {α : Type} (links : Array (Option α)) (id : Nat) :
    (links.push none)[id]?.join = links[id]?.join := by
  rw [Array.getElem?_push]
  split
  · rename_i same
    simp [same]
  · rfl

/-- A node becomes the holder of its operands and has none itself. -/
theorem parent?_add (node : Node) (inside : ∀ operand ∈ node.operands, operand < tree.parents.size)
    (id : NodeId) :
    (tree.add node).1.parent? id =
      if id ∈ node.operands then some tree.size else tree.parent? id := by
  rw [← parent?_foldl_setParent node.operands (some tree.size) inside id]
  exact join_getElem?_push_none _ id

end Adding

section Slots

theorem idxOf?_append_cons (first : child ∉ left) (right : List NodeId) :
    (left ++ child :: right).idxOf? child = some left.length := by
  induction left with
  | nil => simp [List.idxOf?_cons]
  | cons other left induction =>
      obtain ⟨different, absent⟩ := not_or.mp (mt List.mem_cons.mpr first)
      simp [List.idxOf?_cons, induction absent, Ne.symm different]

/-- A statement that its holder lists has its slot there. -/
theorem slot?_eq_some (linked : tree.parent? child = some parent)
    (split : tree.children parent = left ++ child :: right) (first : child ∉ left) :
    tree.slot? child = some (parent, left.length) := by
  simp [slot?, linked, split, idxOf?_append_cons first]

/-- A node that its holder does not list has no slot. -/
theorem slot?_eq_none (absent : ∀ holder, tree.parent? child = some holder →
    child ∉ tree.children holder) : tree.slot? child = none := by
  cases linked : tree.parent? child with
  | none => simp [slot?, linked]
  | some holder =>
      have missing : (tree.children holder).idxOf? child = none := by
        simpa using absent holder linked
      simp [slot?, linked, missing]

theorem detach_eq_self (absent : ∀ holder, tree.parent? child = some holder →
    child ∉ tree.children holder) : tree.detach child = (tree, none) := by
  rw [detach, slot?_eq_none absent]

/-- The body of a holder with its statements under a change of them. -/
theorem mapBody_children (change : List NodeId → List NodeId) {children : List NodeId}
    (listed : tree.children parent = children) :
    (tree.node parent).mapBody (fun body => { body with children := change body.children }) =
      (tree.node parent).holding (change children) := by
  refine Node.mapBody_congr fun body found => ?_
  have same : body.children = children := by
    rw [← listed, children_eq, Node.statements, found]
    rfl
  simp [Body.holding, same]

section Detaching

variable (linked : tree.parent? child = some parent)
  (split : tree.children parent = left ++ child :: right) (first : child ∉ left)

include linked split first

theorem detach_snd : (tree.detach child).2 = some left.length := by
  rw [detach, slot?_eq_some linked split first]

theorem node_detach : (tree.detach child).1.node =
    Function.update tree.node parent ((tree.node parent).holding (left ++ right)) := by
  have erased : (left ++ child :: right).eraseIdx left.length = left ++ right := by
    rw [List.eraseIdx_append_of_length_le (Nat.le_refl _)]
    simp
  rw [detach, slot?_eq_some linked split first, ← erased,
    ← mapBody_children (fun children => children.eraseIdx left.length) split]
  exact node_modifyBody tree parent _

theorem parent?_detach :
    (tree.detach child).1.parent? = Function.update tree.parent? child none := by
  rw [detach, slot?_eq_some linked split first]
  exact parent?_setParent (lt_of_parent? linked) none

/-- Replacing a statement gives its place to another one. -/
theorem node_replace (new : NodeId) : (tree.replace child new).1.node =
    Function.update tree.node parent ((tree.node parent).holding (left ++ new :: right)) := by
  have set : (left ++ child :: right).set left.length new = left ++ new :: right := by simp
  rw [replace, slot?_eq_some linked split first, ← set,
    ← mapBody_children (fun children => children.set left.length new) split]
  exact node_modifyBody tree parent _

theorem parent?_replace {new : NodeId} (inside : new < tree.parents.size) :
    (tree.replace child new).1.parent? =
      Function.update (Function.update tree.parent? child none) new (some parent) := by
  rw [replace, slot?_eq_some linked split first]
  rw [parent?_setParent (by rw [size_parents_setParent]; exact inside)]
  exact congrArg (Function.update · new (some parent)) (parent?_setParent (lt_of_parent? linked) none)

end Detaching

@[simp]
theorem size_detach (tree : ScriptTree) (child : NodeId) : (tree.detach child).1.size = tree.size := by
  unfold detach
  split
  · rw [size_setParent, size_modify]
  · rfl

@[simp]
theorem size_parents_detach (tree : ScriptTree) (child : NodeId) :
    (tree.detach child).1.parents.size = tree.parents.size := by
  unfold detach
  split
  · rw [size_parents_setParent]
    rfl
  · rfl

@[simp]
theorem vars_detach (tree : ScriptTree) (child : NodeId) :
    (tree.detach child).1.vars = tree.vars := by
  unfold detach
  split <;> rfl

@[simp]
theorem size_replace (tree : ScriptTree) (old new : NodeId) :
    (tree.replace old new).1.size = tree.size := by
  unfold replace
  split
  · simp only [size_setParent, size_modify]
  · rfl

@[simp]
theorem size_parents_replace (tree : ScriptTree) (old new : NodeId) :
    (tree.replace old new).1.parents.size = tree.parents.size := by
  unfold replace
  split
  · simp only [size_parents_setParent]
    rfl
  · rfl

@[simp]
theorem vars_replace (tree : ScriptTree) (old new : NodeId) :
    (tree.replace old new).1.vars = tree.vars := by
  unfold replace
  split <;> rfl

end Slots

section Attaching

variable (owns : (tree.node parent).body?.isSome)

include owns

theorem node_append_eq (child : NodeId) : (tree.append parent child).node =
    Function.update tree.node parent
      ((tree.node parent).holding (tree.children parent ++ [child])) := by
  rw [append, if_pos owns, ← mapBody_children (fun children => children ++ [child]) rfl]
  exact node_modifyBody tree parent _

theorem parent?_append (inside : child < tree.parents.size) : (tree.append parent child).parent? =
    Function.update tree.parent? child (some parent) := by
  rw [append, if_pos owns]
  exact parent?_setParent inside _

theorem node_insert (split : tree.children parent = left ++ right) (child : NodeId) :
    (tree.insert parent left.length child).node =
      Function.update tree.node parent ((tree.node parent).holding (left ++ child :: right)) := by
  have placed : (left ++ right).take left.length ++ child :: (left ++ right).drop left.length =
      left ++ child :: right := by simp
  rw [insert, if_pos owns, ← placed, ← mapBody_children (fun children =>
    children.take left.length ++ child :: children.drop left.length) split]
  exact node_modifyBody tree parent _

theorem parent?_insert (inside : child < tree.parents.size) (index : Nat) :
    (tree.insert parent index child).parent? =
      Function.update tree.parent? child (some parent) := by
  rw [insert, if_pos owns]
  exact parent?_setParent inside _

end Attaching

@[simp]
theorem size_parents_append (tree : ScriptTree) (parent child : NodeId) :
    (tree.append parent child).parents.size = tree.parents.size := by
  unfold append
  split
  · rw [size_parents_setParent]
    rfl
  · rfl

@[simp]
theorem size_insert (tree : ScriptTree) (parent index child : NodeId) :
    (tree.insert parent index child).size = tree.size := by
  unfold insert
  split
  · rw [size_setParent, size_modify]
  · rfl

@[simp]
theorem size_parents_insert (tree : ScriptTree) (parent index child : NodeId) :
    (tree.insert parent index child).parents.size = tree.parents.size := by
  unfold insert
  split
  · rw [size_parents_setParent]
    rfl
  · rfl

@[simp]
theorem vars_insert (tree : ScriptTree) (parent index child : NodeId) :
    (tree.insert parent index child).vars = tree.vars := by
  unfold insert
  split <;> rfl

end ScriptTree
end NwScript
