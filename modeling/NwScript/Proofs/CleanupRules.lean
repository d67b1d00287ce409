import NwScript.Proofs.TreeWalks
import NwScript.Script.Cleanup

/-!
# Effects of the cleanup rules

What each rule does to a tree in which every child statement links to its holder: which statements a
body holds afterwards, which nodes and links change, and that the tree stays of that kind.  Only an
expression among the statements may be linked elsewhere, namely to a node that uses it as an operand.
-/

namespace NwScript

namespace Node

theorem owns_of_isBlock {node : Node} (block : node.isBlock) : node.body?.isSome := by
  cases node <;> first | rfl | cases block

theorem not_isExpression_of_isBlock {node : Node} (block : node.isBlock) :
    node.isExpression = false := by
  cases node <;> first | rfl | cases block

@[simp]
theorem holding_holding (first second : List NodeId) (node : Node) :
    (node.holding first).holding second = node.holding second := by
  cases node <;> rfl

@[simp]
theorem holding_statements (node : Node) : node.holding node.statements = node := by
  cases node <;> rfl

@[simp]
theorem isExpression_mapBody (change : Body → Body) (node : Node) :
    (node.mapBody change).isExpression = node.isExpression := by
  cases node <;> rfl

@[simp]
theorem isBlock_mapBody (change : Body → Body) (node : Node) :
    (node.mapBody change).isBlock = node.isBlock := by
  cases node <;> rfl

end Node

namespace VarTable

/-- Two tables of variables differ in no link between aggregates and members. -/
structure Alike (before after : VarTable) : Prop where
  /-- No variable is added. -/
  size : after.size = before.size
  /-- Members stay in their aggregates. -/
  parent? : after.parent? = before.parent?
  /-- Aggregates keep their members. -/
  members : after.members = before.members

theorem Alike.refl (table : VarTable) : table.Alike table :=
  ⟨rfl, rfl, rfl⟩

theorem Alike.trans {before middle after : VarTable} (first : before.Alike middle)
    (second : middle.Alike after) : before.Alike after :=
  ⟨second.size.trans first.size, second.parent?.trans first.parent?,
    second.members.trans first.members⟩

theorem Alike.symm {before after : VarTable} (alike : before.Alike after) : after.Alike before :=
  ⟨alike.size.symm, alike.parent?.symm, alike.members.symm⟩

theorem Alike.root {before after : VarTable} (alike : before.Alike after) (id : VarId) :
    after.root id = before.root id := by
  have from_steps : ∀ steps id, after.rootFrom steps id = before.rootFrom steps id := by
    intro steps
    induction steps with
    | zero => exact fun _ => rfl
    | succ steps induction =>
        intro id
        rw [rootFrom, rootFrom, alike.parent?]
        split <;> simp [induction]
  rw [VarTable.root, VarTable.root, alike.size, from_steps]

/-- A change of other properties than the links between aggregates and members. -/
theorem Alike.modify (table : VarTable) (id : VarId) (change : Variable → Variable)
    (kept : ∀ entry, (change entry).parent = entry.parent ∧
      (change entry).members = entry.members) : table.Alike (table.modify id change) := by
  have entries : ∀ other, (table.modify id change).get? other =
      if id = other then (table.get? other).map change else table.get? other := by
    intro other
    rw [get?, get?, VarTable.modify, Array.getElem?_modify]
  refine ⟨by simp, ?_, ?_⟩
  · funext other
    rw [VarTable.parent?, VarTable.parent?, entries]
    by_cases same : id = other
    · cases table.get? other <;> simp [same, kept]
    · simp [same]
  · funext other
    rw [VarTable.members, VarTable.members, entries]
    by_cases same : id = other
    · cases table.get? other <;> simp [same, kept]
    · simp [same]

/-- No aggregate is a member of an aggregate. -/
def IsShallow (table : VarTable) : Prop :=
  ∀ whole outer, table.members whole ≠ [] → table.parent? whole = some outer →
    whole ∉ table.members outer

theorem Alike.isShallow {before after : VarTable} (alike : before.Alike after)
    (shallow : before.IsShallow) : after.IsShallow := by
  intro whole outer some_member linked
  rw [alike.members] at some_member ⊢
  rw [alike.parent?] at linked
  exact shallow whole outer some_member linked

end VarTable

namespace ScriptTree

/-- Every child statement has one place and links to its holder.  An expression among them may link
to a node without statements that uses it, or to the host, while it stands there too. -/
structure IsPlaced (tree : ScriptTree) (host : Option NodeId) : Prop where
  /-- Every node has a link. -/
  sized : tree.parents.size = tree.size
  /-- The root owns statements. -/
  rooted : (tree.node root).body?.isSome
  /-- Operands and child statements are nodes of the tree. -/
  inside : ∀ {upper lower : NodeId}, tree.Below upper lower → lower < tree.size
  /-- Child statements link to their holder, or are expressions in use. -/
  linked : ∀ {holder child : NodeId}, child ∈ tree.children holder →
    tree.parent? child = some holder ∨
      (tree.node child).isExpression ∧ ∃ user, tree.parent? child = some user ∧
        ((tree.node user).body? = none ∨ host = some user ∧ child ∈ tree.children user)
  /-- No body holds a statement twice. -/
  once : ∀ holder, (tree.children holder).Nodup
  /-- Nothing is below itself. -/
  acyclic : tree.IsAcyclic
  /-- Only expressions are operands and child statements at once. -/
  apart : ∀ {user operand holder : NodeId}, operand ∈ (tree.node user).operands →
    operand ∈ tree.children holder → (tree.node operand).isExpression

section Moving

variable {tree : ScriptTree} {inner host : NodeId}

/-- A statement that can be moved out of a body: it links to the body, or to a node without
statements. -/
def IsMovable (tree : ScriptTree) (inner statement : NodeId) : Prop :=
  tree.parent? statement = some inner ∨
    ∃ user, tree.parent? statement = some user ∧ (tree.node user).body? = none

/-- A statement moves from one body behind the statements of another one. -/
def move (host : NodeId) (tree : ScriptTree) (statement : NodeId) : ScriptTree :=
  (tree.detach statement).1.append host statement

/-- What stays of some statements when others move away: an expression in use has two places then. -/
def remaining (tree : ScriptTree) (inner : NodeId) (moved : List NodeId) : List NodeId :=
  (tree.children inner).filter fun child => child ∉ moved ∨ tree.parent? child ≠ some inner

theorem filter_ne_of_nodup {left right : List NodeId} {child : NodeId}
    (once : (left ++ child :: right).Nodup) :
    (left ++ child :: right).filter (· ≠ child) = left ++ right := by
  have apart := List.nodup_cons.mp (List.nodup_middle.mp once)
  have absent : ∀ other ∈ left ++ right, other ≠ child := by
    rintro other listed rfl
    exact apart.1 listed
  rw [List.filter_append, List.filter_cons, if_neg (by simp), ← List.filter_append,
    List.filter_eq_self]
  simpa using absent

/-- Moving one statement changes the two bodies and the link of the statement. -/
theorem move_spec (different : inner ≠ host) (owns : (tree.node host).body?.isSome)
    {statement : NodeId} (once : (tree.children inner).Nodup)
    (held : statement ∈ tree.children inner) (movable : tree.IsMovable inner statement) :
    (tree.move host statement).node = Function.update (Function.update tree.node inner
        ((tree.node inner).holding (tree.remaining inner [statement])))
      host ((tree.node host).holding (tree.children host ++ [statement])) ∧
    (tree.move host statement).parent? =
      Function.update tree.parent? statement (some host) := by
  rcases movable with own | ⟨user, used, bare⟩
  · obtain ⟨left, right, split, first⟩ := List.eq_append_cons_of_mem held
    have rest : tree.remaining inner [statement] = left ++ right := by
      rw [split] at once
      rw [remaining, split, ← filter_ne_of_nodup once]
      refine List.filter_congr fun child _ => ?_
      by_cases same : child = statement
      · simp [same, own]
      · simp [same]
    have detached := node_detach own split first
    have untouched : (tree.detach statement).1.node host = tree.node host := by
      rw [detached, Function.update_of_ne (Ne.symm different)]
    have owns_still : ((tree.detach statement).1.node host).body?.isSome := by rwa [untouched]
    constructor
    · rw [move, node_append_eq owns_still, untouched, children_eq, untouched, detached, rest]
      rfl
    · rw [move, parent?_append owns_still (by simpa using lt_of_parent? own),
        parent?_detach own split first, Function.update_idem]
  · have absent : ∀ holder, tree.parent? statement = some holder →
        statement ∉ tree.children holder := by
      intro holder linked
      rw [used, Option.some.injEq] at linked
      rw [← linked, children_eq, Node.statements_eq_nil bare]
      exact List.not_mem_nil
    have other : user ≠ inner := by
      rintro rfl
      exact absurd (Node.owns_of_mem_statements held) (by simp [bare])
    have rest : tree.remaining inner [statement] = tree.children inner := by
      rw [remaining, List.filter_eq_self]
      intro child _
      by_cases same : child = statement
      · simp [same, used, other]
      · simp [same]
    constructor
    · rw [move, detach_eq_self absent, node_append_eq owns, rest, tree.children_eq inner,
        Node.holding_statements, Function.update_eq_self]
    · rw [move, detach_eq_self absent, parent?_append owns (lt_of_parent? used)]

@[simp]
theorem size_foldl_move (host : NodeId) (tree : ScriptTree) (statements : List NodeId) :
    (statements.foldl (move host) tree).size = tree.size := by
  induction statements generalizing tree with
  | nil => rfl
  | cons statement statements induction => simp [induction, move]

@[simp]
theorem size_parents_foldl_move (host : NodeId) (tree : ScriptTree) (statements : List NodeId) :
    (statements.foldl (move host) tree).parents.size = tree.parents.size := by
  induction statements generalizing tree with
  | nil => rfl
  | cons statement statements induction => simp [induction, move]

@[simp]
theorem vars_foldl_move (host : NodeId) (tree : ScriptTree) (statements : List NodeId) :
    (statements.foldl (move host) tree).vars = tree.vars := by
  induction statements generalizing tree with
  | nil => rfl
  | cons statement statements induction => simp [induction, move]

/-- Moving statements one after another. -/
theorem foldl_move_spec (different : inner ≠ host) (owns : (tree.node host).body?.isSome)
    {statements : List NodeId} (distinct : statements.Nodup) (once : (tree.children inner).Nodup)
    (held : ∀ statement ∈ statements, statement ∈ tree.children inner)
    (movable : ∀ statement ∈ statements, tree.IsMovable inner statement) :
    (statements.foldl (move host) tree).node = Function.update (Function.update tree.node inner
        ((tree.node inner).holding (tree.remaining inner statements)))
      host ((tree.node host).holding (tree.children host ++ statements)) ∧
    ∀ id, (statements.foldl (move host) tree).parent? id =
      if id ∈ statements then some host else tree.parent? id := by
  induction statements generalizing tree with
  | nil =>
      have rest : tree.remaining inner [] = tree.children inner := by simp [remaining]
      refine ⟨?_, fun id => by simp⟩
      rw [List.foldl_nil, rest, List.append_nil, children_eq, children_eq,
        Node.holding_statements, Node.holding_statements, Function.update_eq_self,
        Function.update_eq_self]
  | cons statement statements induction =>
      obtain ⟨fresh, distinct⟩ := List.nodup_cons.mp distinct
      have here := held statement List.mem_cons_self
      have owns_inner := Node.owns_of_mem_statements here
      obtain ⟨nodes, links⟩ :=
        move_spec different owns once here (movable statement List.mem_cons_self)
      have node_inner : (tree.move host statement).node inner =
          (tree.node inner).holding (tree.remaining inner [statement]) := by
        rw [nodes, Function.update_of_ne different, Function.update_self]
      have node_host : (tree.move host statement).node host =
          (tree.node host).holding (tree.children host ++ [statement]) := by
        rw [nodes, Function.update_self]
      have children_inner : (tree.move host statement).children inner =
          tree.remaining inner [statement] := by
        rw [children_eq, node_inner, Node.statements_holding owns_inner]
      have children_host : (tree.move host statement).children host =
          tree.children host ++ [statement] := by
        rw [children_eq, node_host, Node.statements_holding owns]
      have rest : (tree.move host statement).remaining inner statements =
          tree.remaining inner (statement :: statements) := by
        rw [remaining, children_inner, remaining, remaining, List.filter_filter, links]
        refine List.filter_congr fun child _ => ?_
        by_cases same : child = statement
        · simp [same, fresh]
        · simp [same]
      have later := @induction (tree.move host statement) (by rw [node_host]; simpa using owns)
        distinct (by rw [children_inner]; exact once.filter _) ?_ ?_
      · rw [List.foldl_cons]
        refine ⟨?_, fun id => ?_⟩
        · rw [later.1, node_inner, node_host, rest, children_host, nodes, Node.holding_holding,
            Node.holding_holding, List.append_assoc, List.singleton_append]
          rw [Function.update_comm different, Function.update_idem,
            Function.update_comm (Ne.symm different), Function.update_idem]
        · rw [later.2, links]
          by_cases same : id = statement
          · simp [same, fresh]
          · simp [same]
      · intro other listed
        have different : other ≠ statement := fun same => fresh (same ▸ listed)
        rw [children_inner, remaining, List.mem_filter]
        exact ⟨held other (List.mem_cons_of_mem _ listed), by simp [different]⟩
      · intro other listed
        have unlike : other ≠ statement := fun same => fresh (same ▸ listed)
        rcases movable other (List.mem_cons_of_mem _ listed) with own | ⟨user, used, bare⟩
        · exact .inl (by rw [links, Function.update_of_ne unlike, own])
        · refine .inr ⟨user, by rw [links, Function.update_of_ne unlike, used], ?_⟩
          have not_inner : user ≠ inner := by
            rintro rfl
            simp [bare] at owns_inner
          have not_host : user ≠ host := by
            rintro rfl
            simp [bare] at owns
          rw [nodes, Function.update_of_ne not_host, Function.update_of_ne not_inner, bare]

end Moving

namespace IsPlaced

variable {tree : ScriptTree} {host : Option NodeId} {holder child : NodeId}

/-- A statement that is no expression links to its holder. -/
theorem home (placed : tree.IsPlaced host) (held : child ∈ tree.children holder)
    (plain : (tree.node child).isExpression = false) : tree.parent? child = some holder := by
  rcases placed.linked held with own | ⟨expression, _⟩
  · exact own
  · simp [plain] at expression

theorem exists_link (placed : tree.IsPlaced host) (held : child ∈ tree.children holder) :
    ∃ user, tree.parent? child = some user := by
  rcases placed.linked held with own | ⟨_, user, used, _⟩
  · exact ⟨holder, own⟩
  · exact ⟨user, used⟩

theorem child_inside (placed : tree.IsPlaced host) (held : child ∈ tree.children holder) :
    child < tree.size :=
  placed.inside (.inr held)

theorem ne_of_below (placed : tree.IsPlaced host) {upper lower : NodeId}
    (below : tree.Below upper lower) : upper ≠ lower := by
  rintro rfl
  exact placed.acyclic upper (.single below)

end IsPlaced

/-- A body takes over the statements of the only block that it holds. -/
structure Absorbs (host inner : NodeId) (before after : ScriptTree) : Prop where
  /-- The block is the only statement. -/
  held : before.children host = [inner]
  /-- It is a block. -/
  block : (before.node inner).isBlock
  /-- No node is added. -/
  size : after.size = before.size
  /-- No link is added. -/
  sized : after.parents.size = before.parents.size
  /-- Variables stay. -/
  vars : after.vars = before.vars
  /-- The host holds the statements of the block, which keeps only those in use elsewhere. -/
  node : after.node = Function.update (Function.update before.node inner
      ((before.node inner).holding (before.remaining inner (before.children inner))))
    host ((before.node host).holding (before.children inner))
  /-- The statements link to the host, and the block to nothing. -/
  parent? : ∀ id, after.parent? id =
    if id ∈ before.children inner then some host
    else if id = inner then none
    else before.parent? id

theorem exists_absorbs {tree changed : ScriptTree} {host : NodeId}
    (placed : tree.IsPlaced (some host)) (applied : tree.absorb? host = some changed) :
    ∃ inner, Absorbs host inner tree changed := by
  unfold absorb? at applied
  split at applied
  swap
  · cases applied
  rename_i inner held
  split at applied
  swap
  · cases applied
  rename_i block
  obtain rfl := Option.some.inj applied
  have listed : inner ∈ tree.children host := by
    rw [held]
    exact List.mem_singleton_self inner
  have home := placed.home listed (Node.not_isExpression_of_isBlock block)
  have different : inner ≠ host := Ne.symm (placed.ne_of_below (.inr listed))
  have owns := Node.owns_of_mem_statements listed
  have apart : inner ∉ tree.children inner := fun inside => placed.ne_of_below (.inr inside) rfl
  have split : tree.children host = [] ++ inner :: [] := held
  have nodes := node_detach home split List.not_mem_nil
  have links := parent?_detach home split List.not_mem_nil
  have node_inner : (tree.detach inner).1.node inner = tree.node inner := by
    rw [nodes, Function.update_of_ne different]
  have node_host : (tree.detach inner).1.node host = (tree.node host).holding [] := by
    rw [nodes, Function.update_self]
    rfl
  have children_inner : (tree.detach inner).1.children inner = tree.children inner := by
    rw [children_eq, node_inner, children_eq]
  have children_host : (tree.detach inner).1.children host = [] := by
    rw [children_eq, node_host, Node.statements_holding owns]
  have movable : ∀ statement ∈ tree.children inner,
      (tree.detach inner).1.IsMovable inner statement := by
    intro statement below
    have unlike : statement ≠ inner := fun same => apart (same ▸ below)
    rw [IsMovable, links, Function.update_of_ne unlike]
    rcases placed.linked below with own | ⟨_, user, used, bare | ⟨same, there⟩⟩
    · exact .inl own
    · refine .inr ⟨user, used, ?_⟩
      have not_host : user ≠ host := by
        rintro rfl
        simp [bare] at owns
      rw [nodes, Function.update_of_ne not_host, bare]
    · obtain rfl := Option.some.inj same
      rw [held, List.mem_singleton] at there
      exact absurd there unlike
  obtain ⟨moved, linked⟩ := foldl_move_spec different (by rw [node_host]; simpa using owns)
    (by rw [← children_inner, children_inner]; exact placed.once inner)
    (by rw [children_inner]; exact placed.once inner)
    (fun statement below => by rwa [children_inner]) movable
  have rest : (tree.detach inner).1.remaining inner (tree.children inner) =
      tree.remaining inner (tree.children inner) := by
    rw [remaining, children_inner, remaining]
    refine List.filter_congr fun child below => ?_
    have unlike : child ≠ inner := fun same => apart (same ▸ below)
    rw [links, Function.update_of_ne unlike]
  rw [node_inner, node_host, children_host, rest, Node.holding_holding, List.nil_append, nodes,
    Function.update_comm (Ne.symm different), Function.update_idem] at moved
  refine ⟨inner, ⟨held, block, ?_, ?_, ?_, moved, fun id => ?_⟩⟩
  · exact (size_foldl_move host _ _).trans (size_detach tree inner)
  · exact (size_parents_foldl_move host _ _).trans (size_parents_detach tree inner)
  · exact (vars_foldl_move host _ _).trans (vars_detach tree inner)
  · refine (linked id).trans ?_
    rw [links, Function.update_apply]

/-- One statement takes the place of neighbouring ones in a body.  It is new or one of them, and its
operands come from there. -/
structure Rewrites (host new : NodeId) (statement : Node) (left old right : List NodeId)
    (before after : ScriptTree) : Prop where
  /-- The old statements stand side by side. -/
  held : before.children host = left ++ old ++ right
  /-- There are some. -/
  taken : old ≠ []
  /-- The statement is a new node, or one of the old statements. -/
  place : new = before.size ∧ after.size = before.size + 1 ∨ new ∈ old ∧ after.size = before.size
  /-- Every node has a link. -/
  sized : after.parents.size = after.size
  /-- It owned no statements before. -/
  bare_before : (before.node new).body? = none
  /-- It owns no statements. -/
  bare : statement.body? = none
  /-- It is no expression. -/
  plain : statement.isExpression = false
  /-- It is no expression before if it stays. -/
  plain_before : new ∈ old → (before.node new).isExpression = false
  /-- Operands stay, are used below the old statements, or are expressions among these. -/
  operands : ∀ operand ∈ statement.operands, operand ∈ (before.node new).operands ∨
    (∃ first ∈ old, ∃ user, before.Reaches first user ∧ operand ∈ (before.node user).operands) ∨
    operand ∈ old ∧ (before.node operand).isExpression
  /-- Operands are not lost. -/
  grown : (before.node new).operands ⊆ statement.operands
  /-- The other old statements are no expressions or become operands. -/
  left_behind : ∀ id ∈ old, id ≠ new → (before.node id).isExpression = false ∨
    id ∈ statement.operands ∧ id ∉ (before.node new).operands
  /-- Aggregates and members stay. -/
  vars : before.vars.Alike after.vars
  /-- The body and the statement change. -/
  node : after.node = Function.update (Function.update before.node host
    ((before.node host).holding (left ++ new :: right))) new statement
  /-- The statement links to the body, its new operands to the statement and the others to nothing. -/
  parent? : ∀ id, after.parent? id =
    if id = new then some host
    else if id ∈ statement.operands ∧ id ∉ (before.node new).operands then some new
    else if id ∈ old then none
    else before.parent? id

section Rules

variable {tree changed : ScriptTree} {host : NodeId}

/-- A child statement that links to its holder is found there. -/
theorem IsPlaced.exists_split (placed : tree.IsPlaced (some host)) {child : NodeId}
    (held : child ∈ tree.children host) : ∃ left right,
      tree.children host = left ++ child :: right ∧ child ∉ left ∧ child ∉ right := by
  obtain ⟨left, right, split, first⟩ := List.eq_append_cons_of_mem held
  have once := placed.once host
  rw [split, List.nodup_middle, List.nodup_cons, List.mem_append] at once
  exact ⟨left, right, split, first, fun later => once.1 (.inr later)⟩

/-- Among the statements of the host, those that can be taken out link to it. -/
theorem IsPlaced.slot?_eq_none (placed : tree.IsPlaced (some host)) {child : NodeId}
    (held : child ∈ tree.children host) (elsewhere : tree.parent? child ≠ some host) :
    tree.slot? child = none := by
  refine ScriptTree.slot?_eq_none fun holder linked => ?_
  rcases placed.linked held with own | ⟨_, user, used, bare | ⟨same, _⟩⟩
  · exact absurd own elsewhere
  · obtain rfl := Option.some.inj (used.symm.trans linked)
    rw [children_eq, Node.statements_eq_nil bare]
    exact List.not_mem_nil
  · exact absurd (used.trans same.symm) elsewhere

/-- An expression that stands in a body and links to it becomes a statement there. -/
theorem exists_rewrites_of_promote? (placed : tree.IsPlaced (some host)) {child : NodeId}
    (held : child ∈ tree.children host) (applied : promote? host tree child = some changed) :
    (tree.node child).isExpression ∧
      ∃ left right, Rewrites host tree.size (.statement child) left [child] right tree changed := by
  unfold promote? at applied
  split at applied
  swap
  · cases applied
  rename_i expression
  have own : tree.parent? child = some host := by
    by_contra elsewhere
    rw [detach, placed.slot?_eq_none held elsewhere] at applied
    cases applied
  obtain ⟨left, right, split, first, last⟩ := placed.exists_split held
  have owns := Node.owns_of_mem_statements held
  have inside := placed.child_inside held
  have host_inside : host < tree.size := lt_of_body? owns
  have detached := detach_snd own split first
  have nodes := node_detach own split first
  have links := parent?_detach own split first
  have pair : tree.detach child = ((tree.detach child).1, some left.length) := by rw [← detached]
  have sized := (size_parents_detach tree child).trans placed.sized
  have counted := size_detach tree child
  have alike := vars_detach tree child
  rw [pair] at applied
  have result : changed = ((tree.detach child).1.add (.statement child)).1.insert host left.length
      ((tree.detach child).1.add (.statement child)).2 := (Option.some.inj applied).symm
  rw [add_snd] at result
  clear applied pair detached
  subst result
  generalize (tree.detach child).1 = without at nodes links sized counted alike
  have operand : ∀ id ∈ (Node.statement child).operands, id < without.parents.size := by
    rw [Node.operands, List.forall_mem_singleton, sized]
    exact inside
  have added := node_add without (.statement child)
  have added_host : (without.add (.statement child)).1.node host =
      (tree.node host).holding (left ++ right) := by
    rw [added, counted, Function.update_of_ne (Nat.ne_of_lt host_inside), nodes,
      Function.update_self]
  have owns_still : ((without.add (.statement child)).1.node host).body?.isSome := by
    rw [added_host, Node.body?_mapBody, Option.isSome_map]
    exact owns
  have between : (without.add (.statement child)).1.children host = left ++ right := by
    rw [children_eq, added_host, Node.statements_holding owns]
  have new_node : tree.node tree.size = .placeholder Node.unknownOperand := node_of_le (Nat.le_refl _)
  refine ⟨expression, left, right, ⟨by simpa using split, by simp, .inl ⟨rfl, ?_⟩, ?_, ?_, rfl, rfl,
    ?_, ?_, ?_, ?_, ?_, ?_, ?_⟩⟩
  · simp [counted]
  · simp [counted, sized]
  · rw [new_node]
    rfl
  · intro listed
    exact absurd (List.mem_singleton.mp listed) (Nat.ne_of_gt inside)
  · simp [Node.operands, expression]
  · rw [new_node]
    exact List.nil_subset _
  · intro id listed _
    rw [new_node]
    exact .inr ⟨listed, List.not_mem_nil⟩
  · rw [vars_insert, vars_add, alike]
    exact .refl _
  · rw [node_insert owns_still between, added_host, added, counted, nodes, Node.holding_holding,
      Function.update_comm (Nat.ne_of_gt host_inside), Function.update_idem]
  · intro id
    rw [parent?_insert owns_still (by simp [sized, counted]), Function.update_apply,
      parent?_add _ operand, links, counted, new_node]
    by_cases same : id = child <;> simp [Node.operands, same]

/-- A declaration is settled where it stands. -/
theorem exists_rewrites_of_settle? (placed : tree.IsPlaced (some host)) {child : NodeId}
    (held : child ∈ tree.children host) (applied : tree.settle? child = some changed) :
    ∃ var init left right, tree.node child = .declaration var init true ∧
      Rewrites host child (.declaration var init false) left [child] right tree changed := by
  unfold settle? at applied
  split at applied
  swap
  · cases applied
  rename_i var init here
  obtain rfl := Option.some.inj applied
  obtain ⟨left, right, split, first, last⟩ := placed.exists_split held
  have own := placed.home held (by rw [here]; rfl)
  have inside := placed.child_inside held
  have same : (tree.node host).holding (left ++ child :: right) = tree.node host := by
    rw [← split, children_eq, Node.holding_statements]
  refine ⟨var, init, left, right, here, ⟨by simpa using split, by simp,
    .inr ⟨List.mem_singleton_self _, by simp⟩, ?_, by rw [here]; rfl, rfl, rfl, fun _ => by rw [here]; rfl, ?_, ?_, ?_, .refl _, ?_, ?_⟩⟩
  · exact placed.sized.trans (size_modify tree child _).symm
  · rw [here]
    exact fun operand used => .inl used
  · rw [here]
    exact List.Subset.refl _
  · exact fun id listed other => absurd (List.mem_singleton.mp listed) other
  · rw [node_modify inside, same, Function.update_eq_self]
  · intro id
    rw [parent?_modify, here]
    by_cases this : id = child
    · simp [this, own]
    · simp [this, Node.operands]

section Folding

/-- A declaration without a value, and behind it an assignment whose value can move into it. -/
structure Folds (tree : ScriptTree) (declaration next : NodeId) (var : VarId) (pending : Bool)
    (expression target value : NodeId) : Prop where
  /-- The declaration. -/
  declares : tree.node declaration = .declaration var none pending
  /-- The statement behind it. -/
  states : tree.node next = .statement expression
  /-- It assigns. -/
  assigns : tree.node expression = .assign target value
  /-- The variable as a whole gets the value. -/
  names : tree.node target = .reference var
  /-- The value does not depend on the variable. -/
  apart : tree.mentions value var = false

theorem assignedValue?_eq_some_iff {statement value : NodeId} {var : VarId} :
    tree.assignedValue? statement var = some value ↔ ∃ expression target,
      tree.node statement = .statement expression ∧ tree.node expression = .assign target value ∧
        tree.node target = .reference var := by
  unfold assignedValue?
  constructor
  · intro found
    split at found
    · split at found
      · split at found
        · simp_all
        · cases found
      · cases found
    · cases found
  · rintro ⟨expression, target, states, assigns, names⟩
    simp [states, assigns, names]

theorem exists_folds_of_foldInitializer? {index : Nat}
    (applied : foldInitializer? host tree index = some changed) :
    ∃ left declaration next right var pending expression target value, left.length = index ∧
      tree.children host = left ++ declaration :: next :: right ∧
      tree.Folds declaration next var pending expression target value ∧
      changed = (((tree.modify declaration fun _ => .declaration var (some value) pending).setParent
        value (some declaration)).detach next).1 := by
  unfold foldInitializer? at applied
  split at applied
  swap
  · cases applied
  rename_i declaration next right rest
  split at applied
  swap
  · cases applied
  rename_i var pending declares
  split at applied
  swap
  · cases applied
  rename_i value assigned
  split at applied
  · cases applied
  rename_i apart
  obtain ⟨expression, target, states, assigns, names⟩ := assignedValue?_eq_some_iff.mp assigned
  have whole := List.take_append_drop index (tree.children host)
  have inside : index ≤ (tree.children host).length := by
    by_contra outside
    rw [List.drop_eq_nil_of_le (by omega)] at rest
    cases rest
  rw [rest] at whole
  exact ⟨_, declaration, next, right, var, pending, expression, target, value,
    by rw [List.length_take, Nat.min_eq_left inside], whole.symm,
    ⟨declares, states, assigns, names, by simpa using apart⟩, (Option.some.inj applied).symm⟩

theorem foldInitializer?_isSome {left right : List NodeId} {declaration next : NodeId} {var : VarId}
    {pending : Bool} {expression target value : NodeId}
    (split : tree.children host = left ++ declaration :: next :: right)
    (folds : tree.Folds declaration next var pending expression target value) :
    (foldInitializer? host tree left.length).isSome := by
  have assigned : tree.assignedValue? next var = some value :=
    assignedValue?_eq_some_iff.mpr ⟨_, _, folds.states, folds.assigns, folds.names⟩
  simp [foldInitializer?, split, folds.declares, assigned, folds.apart]

/-- The value moves into the declaration, and the assignment goes. -/
theorem rewrites_of_folds (placed : tree.IsPlaced (some host)) {left right : List NodeId}
    {declaration next : NodeId} {var : VarId} {pending : Bool} {expression target value : NodeId}
    (split : tree.children host = left ++ declaration :: next :: right)
    (folds : tree.Folds declaration next var pending expression target value) :
    Rewrites host declaration (.declaration var (some value) pending) left [declaration, next] right
      tree (((tree.modify declaration fun _ => .declaration var (some value) pending).setParent
        value (some declaration)).detach next).1 := by
  have here : declaration ∈ tree.children host := by simp [split]
  have behind : next ∈ tree.children host := by simp [split]
  have stated : tree.Below next expression := .inl (by simp [folds.states, Node.operands])
  have used : value ∈ (tree.node expression).operands := by simp [folds.assigns, Node.operands]
  have own := placed.home here (by rw [folds.declares]; rfl)
  have own_next := placed.home behind (by rw [folds.states]; rfl)
  have not_host : declaration ≠ host := Ne.symm (placed.ne_of_below (.inr here))
  have not_value : declaration ≠ value := by
    rintro rfl
    simpa [folds.declares, Node.isExpression] using placed.apart used here
  have not_next : next ≠ value := by
    rintro rfl
    exact placed.acyclic next (.tail (.single stated) (.inl used))
  have inside : value < tree.parents.size := placed.sized ▸ placed.inside (.inl used)
  have nodes := node_modify (placed.child_inside here)
    fun _ => Node.declaration var (some value) pending
  have node_host : (tree.modify declaration fun _ => .declaration var (some value) pending).node host =
      tree.node host := by
    rw [nodes, Function.update_of_ne (Ne.symm not_host)]
  have links := @parent?_setParent (tree.modify declaration fun _ =>
    .declaration var (some value) pending) _ inside (some declaration)
  rw [parent?_modify] at links
  generalize middle : (tree.modify declaration fun _ => .declaration var (some value) pending).setParent
    value (some declaration) = initialized at links
  have same_nodes : initialized.node =
      (tree.modify declaration fun _ => .declaration var (some value) pending).node := by
    rw [← middle]
    rfl
  have counted : initialized.size = tree.size := by
    rw [← middle, size_setParent, size_modify]
  have sized : initialized.parents.size = tree.parents.size := by
    rw [← middle, size_parents_setParent]
    rfl
  have vars : initialized.vars = tree.vars := by
    rw [← middle]
    rfl
  have between : initialized.children host = (left ++ [declaration]) ++ next :: right := by
    rw [children_eq, same_nodes, node_host, ← children_eq, split]
    simp
  have linked : initialized.parent? next = some host := by
    rw [links, Function.update_of_ne not_next, own_next]
  have once := placed.once host
  rw [split] at once
  have absent : next ∉ left ++ [declaration] := by
    have nowhere : (left ++ [declaration] ++ next :: right).Nodup := by simpa using once
    rw [List.nodup_middle, List.nodup_cons] at nowhere
    exact fun listed => nowhere.1 (List.mem_append_left _ listed)
  refine ⟨by simpa using split, by simp, .inr ⟨List.mem_cons_self, by simp [counted]⟩,
    by simp [counted, sized, placed.sized], by rw [folds.declares]; rfl, rfl, rfl,
    fun _ => by rw [folds.declares]; rfl, ?_, ?_, ?_, by rw [vars_detach, vars]; exact .refl _, ?_, ?_⟩
  · rintro operand listed
    obtain rfl := List.mem_singleton.mp listed
    exact .inr (.inl ⟨next, by simp, expression, .single stated, used⟩)
  · rw [folds.declares]
    exact List.nil_subset _
  · rintro id listed other
    obtain rfl : id = next := by simpa [other] using listed
    exact .inl (by rw [folds.states]; rfl)
  · rw [node_detach linked between absent, same_nodes, node_host, nodes,
      Function.update_comm not_host, List.append_assoc]
    rfl
  · intro id
    have apart : declaration ≠ next := fun same => absent (by simp [same])
    rw [parent?_detach linked between absent, links, folds.declares, Function.update_apply,
      Function.update_apply]
    by_cases first : id = declaration
    · simp [first, apart, not_value, own]
    by_cases second : id = next
    · simp [second, Ne.symm apart, not_next, Node.operands]
    by_cases third : id = value
    · simp [third, Ne.symm not_value, Ne.symm not_next, Node.operands]
    · simp [first, second, third, Node.operands]

end Folding

section Merging

/-- Statements declare the members of an aggregate one by one. -/
def IsRun (tree : ScriptTree) (aggregate : VarId) (run : List NodeId) : Prop :=
  run.map tree.memberDeclaration? =
    (tree.vars.members aggregate).map fun member => some (member, aggregate)

theorem declaredMembers_eq_iff {aggregate : VarId} {run : List NodeId} {members : List VarId}
    (short : run.length ≤ members.length) : tree.declaredMembers aggregate run = members ↔
      run.map tree.memberDeclaration? = members.map fun member => some (member, aggregate) := by
  induction run generalizing members with
  | nil => cases members <;> simp [declaredMembers]
  | cons statement run induction =>
      cases members with
      | nil => cases short
      | cons member members =>
          have rest := induction (Nat.le_of_succ_le_succ short)
          rw [declaredMembers, List.map_cons, List.map_cons, List.cons.injEq, ← rest]
          cases tree.memberDeclaration? statement with
          | none => simp
          | some found =>
              obtain ⟨declared, parent⟩ := found
              by_cases same : parent = aggregate <;> simp [same]

theorem exists_run_of_merge? {index : Nat} (applied : merge? host tree index = some changed) :
    ∃ left run right aggregate, left.length = index ∧ tree.children host = left ++ run ++ right ∧
      tree.vars.members aggregate ≠ [] ∧ tree.IsRun aggregate run ∧
      changed = ((tree.add (.declaration aggregate none false)).1.replaceAll tree.size
        run).declareWhole aggregate tree.size := by
  unfold merge? at applied
  split at applied
  · cases applied
  rename_i statement rest behind
  split at applied
  · cases applied
  rename_i aggregate declares
  dsimp only at applied
  split at applied
  · cases applied
  rename_i kept
  obtain ⟨some_member, whole⟩ := not_or.mp kept
  rw [Decidable.not_not] at whole
  rw [← behind] at whole applied
  have split := List.take_append_drop index (tree.children host)
  rw [← List.take_append_drop (tree.vars.members aggregate).length ((tree.children host).drop index),
    ← List.append_assoc] at split
  have inside : index ≤ (tree.children host).length := by
    by_contra outside
    rw [List.drop_eq_nil_of_le (by omega)] at behind
    cases behind
  exact ⟨_, _, _, aggregate, by rw [List.length_take, Nat.min_eq_left inside], split.symm,
    some_member, (declaredMembers_eq_iff (List.length_take_le _ _)).mp whole,
    (Option.some.inj applied).symm⟩

theorem IsRun.length_eq {aggregate : VarId} {run : List NodeId} (is_run : tree.IsRun aggregate run) :
    run.length = (tree.vars.members aggregate).length := by
  rw [← List.length_map tree.memberDeclaration?, is_run, List.length_map]

theorem IsRun.ne_nil {aggregate : VarId} {run : List NodeId} (is_run : tree.IsRun aggregate run)
    (some_member : tree.vars.members aggregate ≠ []) : run ≠ [] := by
  rintro rfl
  exact some_member (List.length_eq_zero_iff.mp is_run.length_eq.symm)

/-- A statement of a run declares a member without a value. -/
theorem IsRun.declares {aggregate : VarId} {run : List NodeId} (is_run : tree.IsRun aggregate run)
    {statement : NodeId} (listed : statement ∈ run) :
    ∃ member pending, tree.node statement = .declaration member none pending ∧
      tree.vars.parent? member = some aggregate ∧ member ∈ tree.vars.members aggregate := by
  have image := List.mem_map_of_mem (f := tree.memberDeclaration?) listed
  rw [is_run] at image
  obtain ⟨member, known, found⟩ := List.mem_map.mp image
  have declared := found.symm
  unfold memberDeclaration? at declared
  split at declared
  swap
  · cases declared
  rename_i var pending here
  obtain ⟨parent, linked, same⟩ := Option.map_eq_some_iff.mp declared
  obtain ⟨rfl, rfl⟩ := Prod.mk.inj same
  exact ⟨_, pending, here, linked, known⟩

theorem merge?_isSome {left run right : List NodeId} {aggregate : VarId}
    (split : tree.children host = left ++ run ++ right)
    (some_member : tree.vars.members aggregate ≠ []) (is_run : tree.IsRun aggregate run) :
    (merge? host tree left.length).isSome := by
  have behind : (tree.children host).drop left.length = run ++ right := by
    rw [split, List.append_assoc, List.drop_left]
  have taken : (run ++ right).take (tree.vars.members aggregate).length = run := by
    rw [← is_run.length_eq, List.take_left]
  have whole : tree.declaredMembers aggregate run = tree.vars.members aggregate :=
    (declaredMembers_eq_iff (Nat.le_of_eq is_run.length_eq)).mpr is_run
  cases run with
  | nil =>
      have empty := is_run.length_eq
      rw [List.length_nil, eq_comm, List.length_eq_zero_iff] at empty
      exact absurd empty some_member
  | cons statement run =>
      obtain ⟨member, pending, here, linked, _⟩ := is_run.declares List.mem_cons_self
      have declares : tree.memberDeclaration? statement = some (member, aggregate) := by
        simp [memberDeclaration?, here, linked]
      rw [List.cons_append] at behind taken
      simp [merge?, behind, declares, taken, whole, some_member]

variable {left right : List NodeId}

/-- Taking out statements one by one. -/
theorem foldl_detach_spec (tree : ScriptTree) {statements : List NodeId}
    (linked : ∀ statement ∈ statements, tree.parent? statement = some host)
    (split : tree.children host = left ++ statements ++ right) (once : (tree.children host).Nodup) :
    (statements.foldl (fun tree statement => (tree.detach statement).1) tree).node =
      Function.update tree.node host ((tree.node host).holding (left ++ right)) ∧
    ∀ id, (statements.foldl (fun tree statement => (tree.detach statement).1) tree).parent? id =
      if id ∈ statements then none else tree.parent? id := by
  induction statements generalizing tree with
  | nil =>
      rw [List.append_nil] at split
      refine ⟨?_, fun id => by simp⟩
      rw [List.foldl_nil, ← split, children_eq, Node.holding_statements, Function.update_eq_self]
  | cons statement statements induction =>
      rw [List.append_assoc, List.cons_append] at split
      have own := linked statement List.mem_cons_self
      have nowhere := once
      rw [split, List.nodup_middle, List.nodup_cons] at nowhere
      have first : statement ∉ left := fun listed => nowhere.1 (List.mem_append_left _ listed)
      have here : statement ∈ tree.children host := by simp [split]
      have owns := Node.owns_of_mem_statements here
      have nodes := node_detach own split first
      have links := parent?_detach own split first
      have node_host : (tree.detach statement).1.node host =
          (tree.node host).holding (left ++ (statements ++ right)) := by
        rw [nodes, Function.update_self]
      have between : (tree.detach statement).1.children host = left ++ statements ++ right := by
        rw [children_eq, node_host, Node.statements_holding owns, List.append_assoc]
      have later := @induction (tree.detach statement).1 (fun other listed => ?_) between
        (by rw [between, List.append_assoc]; exact nowhere.2)
      · rw [List.foldl_cons]
        refine ⟨?_, fun id => ?_⟩
        · rw [later.1, node_host, nodes, Node.holding_holding, Function.update_idem]
        · rw [later.2, links]
          by_cases same : id = statement <;> simp [same]
      · have different : other ≠ statement := by
          rintro rfl
          exact nowhere.1 (List.mem_append_right _ (List.mem_append_left _ listed))
        rw [links, Function.update_of_ne different]
        exact linked other (List.mem_cons_of_mem _ listed)

/-- One statement in the place of several. -/
theorem replaceAll_spec (tree : ScriptTree) {run : List NodeId} (new : NodeId) (some_statement : run ≠ [])
    (linked : ∀ statement ∈ run, tree.parent? statement = some host)
    (split : tree.children host = left ++ run ++ right) (once : (tree.children host).Nodup)
    (inside : new < tree.parents.size) (fresh : new ∉ tree.children host) :
    (tree.replaceAll new run).node =
      Function.update tree.node host ((tree.node host).holding (left ++ new :: right)) ∧
    ∀ id, (tree.replaceAll new run).parent? id =
      if id = new then some host else if id ∈ run then none else tree.parent? id := by
  obtain ⟨first, others, rfl⟩ := List.exists_cons_of_ne_nil some_statement
  rw [List.append_assoc, List.cons_append] at split
  rw [split] at once fresh
  have nowhere := once
  rw [List.nodup_middle, List.nodup_cons] at nowhere
  have own := linked first List.mem_cons_self
  have absent : first ∉ left := fun listed => nowhere.1 (List.mem_append_left _ listed)
  have here : first ∈ tree.children host := by simp [split]
  have owns := Node.owns_of_mem_statements here
  have nodes := node_replace own split absent new
  have links := parent?_replace own split absent inside
  have node_host : (tree.replace first new).1.node host =
      (tree.node host).holding (left ++ new :: (others ++ right)) := by
    rw [nodes, Function.update_self]
  have between : (tree.replace first new).1.children host = (left ++ [new]) ++ others ++ right := by
    rw [children_eq, node_host, Node.statements_holding owns]
    simp
  have different : ∀ statement ∈ first :: others, statement ≠ new := by
    rintro _ listed rfl
    exact fresh (List.mem_append_right _ (List.mem_append_left right listed))
  have other_first : ∀ statement ∈ others, statement ≠ first := by
    rintro _ listed rfl
    exact nowhere.1 (List.mem_append_right _ (List.mem_append_left _ listed))
  have linked_others : ∀ statement ∈ others,
      (tree.replace first new).1.parent? statement = some host := by
    intro statement listed
    have unlike := different statement (List.mem_cons_of_mem _ listed)
    rw [links, Function.update_of_ne unlike, Function.update_of_ne (other_first statement listed)]
    exact linked statement (List.mem_cons_of_mem _ listed)
  have taken := foldl_detach_spec _ linked_others between ?_
  · refine ⟨?_, fun id => ?_⟩
    · rw [replaceAll, taken.1, node_host, nodes, Node.holding_holding, Function.update_idem]
      simp
    · rw [replaceAll, taken.2, links]
      by_cases is_new : id = new
      · have kept : id ∉ others := fun listed =>
          different id (List.mem_cons_of_mem _ listed) is_new
        rw [if_neg kept, if_pos is_new, is_new, Function.update_self]
      · rw [Function.update_of_ne is_new, if_neg is_new]
        by_cases same : id = first <;> simp [same]
  · have renewed : (new :: (left ++ (others ++ right))).Nodup :=
      List.nodup_cons.mpr ⟨fun listed => fresh (by
        rcases List.mem_append.mp listed with there | there
        · exact List.mem_append_left _ there
        · exact List.mem_append_right _ (List.mem_cons_of_mem _ there)), nowhere.2⟩
    rw [between]
    simpa [List.nodup_middle] using renewed

/-- Replacing statements leaves the numbers of nodes and links and the variables alone. -/
theorem replaceAll_sizes (tree : ScriptTree) (new : NodeId) (run : List NodeId) :
    (tree.replaceAll new run).size = tree.size ∧
      (tree.replaceAll new run).parents.size = tree.parents.size ∧
        (tree.replaceAll new run).vars = tree.vars := by
  have detaching : ∀ (others : List NodeId) (tree : ScriptTree),
      let taken := others.foldl (fun tree statement => (tree.detach statement).1) tree
      taken.size = tree.size ∧ taken.parents.size = tree.parents.size ∧ taken.vars = tree.vars := by
    intro others
    induction others with
    | nil => exact fun tree => ⟨rfl, rfl, rfl⟩
    | cons other others induction =>
        intro tree
        obtain ⟨nodes, links, vars⟩ := induction (tree.detach other).1
        exact ⟨nodes.trans (size_detach _ _), links.trans (size_parents_detach _ _),
          vars.trans (vars_detach _ _)⟩
  cases run with
  | nil => exact ⟨rfl, rfl, rfl⟩
  | cons first others =>
      obtain ⟨nodes, links, vars⟩ := detaching others (tree.replace first new).1
      exact ⟨nodes.trans (size_replace _ _ _), links.trans (size_parents_replace _ _ _),
        vars.trans (vars_replace _ _ _)⟩

/-- Recording a declaration changes no link between aggregates and members. -/
theorem exists_declareWhole_eq (tree : ScriptTree) (aggregate : VarId) (declaration : NodeId) :
    ∃ vars, tree.declareWhole aggregate declaration = { tree with vars } ∧ tree.vars.Alike vars := by
  have members : ∀ (members : List VarId) (tree : ScriptTree), ∃ vars,
      members.foldl (fun tree member =>
        tree.modifyVar member fun entry => { entry with declaration := none }) tree =
        { tree with vars } ∧ tree.vars.Alike vars := by
    intro members
    induction members with
    | nil => exact fun tree => ⟨tree.vars, rfl, .refl _⟩
    | cons member members induction =>
        intro tree
        obtain ⟨vars, same, alike⟩ := induction
          (tree.modifyVar member fun entry => { entry with declaration := none })
        exact ⟨vars, same, VarTable.Alike.trans (.modify tree.vars member
          (fun entry => { entry with declaration := none }) fun _ => ⟨rfl, rfl⟩) alike⟩
  obtain ⟨vars, same, alike⟩ := members (tree.vars.members aggregate) tree
  refine ⟨_, by rw [declareWhole, same]; rfl, alike.trans ?_⟩
  exact .modify vars aggregate (fun entry => { entry with declaration := some declaration })
    fun _ => ⟨rfl, rfl⟩

/-- The whole aggregate is declared in the place of its members. -/
theorem rewrites_of_isRun (placed : tree.IsPlaced (some host)) {run : List NodeId}
    {aggregate : VarId} (split : tree.children host = left ++ run ++ right)
    (some_member : tree.vars.members aggregate ≠ []) (is_run : tree.IsRun aggregate run) :
    Rewrites host tree.size (.declaration aggregate none false) left run right tree
      (((tree.add (.declaration aggregate none false)).1.replaceAll tree.size run).declareWhole
        aggregate tree.size) := by
  have some_statement := is_run.ne_nil some_member
  have held : ∀ statement ∈ run, statement ∈ tree.children host := fun statement listed => by
    rw [split]
    exact List.mem_append_left _ (List.mem_append_right _ listed)
  have plain : ∀ statement ∈ run, (tree.node statement).isExpression = false := by
    intro statement listed
    obtain ⟨member, pending, here, _⟩ := is_run.declares listed
    rw [here]
    rfl
  have owns : (tree.node host).body?.isSome := by
    obtain ⟨first, others, rfl⟩ := List.exists_cons_of_ne_nil some_statement
    exact Node.owns_of_mem_statements (held first List.mem_cons_self)
  have other : host ≠ tree.size := Nat.ne_of_lt (lt_of_body? owns)
  have added := node_add tree (.declaration aggregate none false)
  have links : (tree.add (.declaration aggregate none false)).1.parent? = tree.parent? := by
    funext id
    rw [parent?_add _ (by simp [Node.operands])]
    simp [Node.operands]
  have node_host : (tree.add (.declaration aggregate none false)).1.node host = tree.node host := by
    rw [added, Function.update_of_ne other]
  have between : (tree.add (.declaration aggregate none false)).1.children host =
      tree.children host := by
    rw [children_eq, node_host, children_eq]
  have replaced := replaceAll_spec (tree.add (.declaration aggregate none false)).1 tree.size some_statement
    (fun statement listed => by rw [links]; exact placed.home (held _ listed) (plain _ listed))
    (between.trans split) (by rw [between]; exact placed.once host) (by simp [placed.sized])
    (by rw [between]; exact fun listed => Nat.lt_irrefl _ (placed.child_inside listed))
  obtain ⟨counted, sized, kept⟩ := replaceAll_sizes
    (tree.add (.declaration aggregate none false)).1 tree.size run
  obtain ⟨vars, result, alike⟩ := exists_declareWhole_eq
    ((tree.add (.declaration aggregate none false)).1.replaceAll tree.size run) aggregate tree.size
  have new_node : tree.node tree.size = .placeholder Node.unknownOperand := node_of_le (Nat.le_refl _)
  rw [kept, vars_add] at alike
  rw [result]
  refine ⟨split, some_statement, .inl ⟨rfl, counted.trans (size_add _ _)⟩, ?_, by rw [new_node]; rfl, rfl, rfl, ?_, ?_,
    ?_, fun id listed _ => .inl (plain id listed), alike, ?_, fun id => ?_⟩
  · refine sized.trans ?_
    rw [size_parents_add, placed.sized]
    exact ((size_add tree _).symm.trans counted.symm)
  · exact fun listed => absurd (placed.child_inside (held _ listed)) (Nat.lt_irrefl _)
  · exact fun operand used => absurd used List.not_mem_nil
  · rw [new_node]
    exact List.nil_subset _
  · exact replaced.1.trans (by rw [node_host, added, Function.update_comm (Ne.symm other)])
  · refine (replaced.2 id).trans ?_
    rw [links]
    simp [Node.operands]

end Merging

end Rules

end ScriptTree
end NwScript
