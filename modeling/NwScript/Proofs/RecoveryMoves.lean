import Mathlib.Logic.Relation
import NwScript.Proofs.ChangedOperands
import NwScript.Proofs.CleanupRules
import NwScript.Recovery.Subroutine

/-!
# Moves of a recovery

A recovery changes its state in a few ways: it adds nodes and variables, attaches and detaches
statements, fills in what it finds out late and keeps record of what it has seen.  What every move
preserves holds throughout a recovery.  Values, which circulate between the stack, the variables and
the operands of nodes, are kept apart from commands, the calls of actions without a result, which
become statements at once.
-/

namespace NwScript

namespace Node

/-- What a node keeps for good: everything but its child statements and what is filled in late. -/
def outline : Node → Node
  | block body => block (body.holding [])
  | branch _ body _ => branch none (body.holding []) none
  | otherwise body => otherwise (body.holding [])
  | whileLoop _ body => whileLoop none (body.holding [])
  | doLoop _ body => doLoop none (body.holding [])
  | switch subject body => switch subject (body.holding [])
  | case label body => case label (body.holding [])
  | closure body => closure (body.holding [])
  | declaration var _ _ => declaration var none false
  | step op _ target => step op false target
  | node => node

/-- A call of an action that has no result. -/
def isCommand (catalog : ActionCatalog) : Node → Bool
  | action id _ _ => ((catalog.returnType? id).getD .void).slots = 0
  | _ => false

section Outline

variable {node other : Node}

@[simp]
theorem outline_mapBody (children : List NodeId) (node : Node) :
    (node.holding children).outline = node.outline := by
  cases node <;> rfl

theorem isExpression_outline (node : Node) : node.outline.isExpression = node.isExpression := by
  cases node <;> rfl

theorem isCommand_outline (catalog : ActionCatalog) (node : Node) :
    node.outline.isCommand catalog = node.isCommand catalog := by
  cases node <;> rfl

theorem body?_outline (node : Node) : node.outline.body? = node.body?.map (Body.holding []) := by
  cases node <;> rfl

theorem isClosure_outline (node : Node) : node.outline.isClosure = node.isClosure := by
  cases node <;> rfl

theorem outline_eq_statement {value : NodeId} (same : node.outline = .statement value) :
    node = .statement value := by
  cases node <;> first | exact same | cases same

theorem outline_eq_declaration {var : VarId} (same : node.outline = .declaration var none false) :
    ∃ init pending, node = .declaration var init pending := by
  cases node with
  | declaration var init pending =>
      cases same
      exact ⟨init, pending, rfl⟩
  | _ => cases same

theorem outline_eq_step {op : StepOp} {target : NodeId} (same : node.outline = .step op false target) :
    ∃ before, node = .step op before target := by
  cases node with
  | step op before target =>
      cases same
      exact ⟨before, rfl⟩
  | _ => cases same

/-- What can be read off the outline of a node is the same for nodes of one outline. -/
theorem congr_outline {α : Type} {read : Node → α} (through : ∀ node, read node.outline = read node)
    (same : node.outline = other.outline) : read node = read other := by
  rw [← through, same, through]

theorem isExpression_congr (same : node.outline = other.outline) :
    node.isExpression = other.isExpression :=
  congr_outline isExpression_outline same

theorem isCommand_congr (catalog : ActionCatalog) (same : node.outline = other.outline) :
    node.isCommand catalog = other.isCommand catalog :=
  congr_outline (isCommand_outline catalog) same

theorem owns_congr (same : node.outline = other.outline) :
    node.body?.isSome = other.body?.isSome := by
  have bodies := congrArg Node.body? same
  rw [body?_outline, body?_outline] at bodies
  simpa using congrArg Option.isSome bodies

theorem isClosure_congr (same : node.outline = other.outline) :
    node.isClosure = other.isClosure :=
  congr_outline isClosure_outline same

end Outline

end Node

namespace VarTable

variable {table : VarTable}

theorem get?_modify (table : VarTable) (id : VarId) (change : Variable → Variable) (other : VarId) :
    (table.modify id change).get? other =
      if id = other then (table.get? other).map change else table.get? other := by
  rw [get?, get?, VarTable.modify, Array.getElem?_modify]

/-- Entries after changes of one kind come from entries that are so related to them. -/
theorem exists_of_foldl_modify (related : Variable → Variable → Prop) {change : Variable → Variable}
    (refl : ∀ entry, related entry entry)
    (step : ∀ {first second}, related first second → related first (change second))
    (ids : List VarId) {id : VarId} {entry : Variable}
    (found : (ids.foldl (fun table id => table.modify id change) table).get? id = some entry) :
    ∃ old, table.get? id = some old ∧ related old entry := by
  have back : ∀ (ids : List VarId) (middle : VarTable),
      (∀ {id entry}, middle.get? id = some entry →
        ∃ old, table.get? id = some old ∧ related old entry) →
      ∀ {id entry}, (ids.foldl (fun table id => table.modify id change) middle).get? id =
        some entry → ∃ old, table.get? id = some old ∧ related old entry := by
    intro ids
    induction ids with
    | nil => exact fun _ known => known
    | cons changed ids induction =>
        intro middle known
        refine induction _ fun {id entry} there => ?_
        rw [get?_modify] at there
        split at there
        · obtain ⟨between, earlier, rfl⟩ := Option.map_eq_some_iff.mp there
          obtain ⟨old, first, kept⟩ := known earlier
          exact ⟨old, first, step kept⟩
        · exact known there
  exact back ids table (fun there => ⟨_, there, refl _⟩) found

@[simp]
theorem size_foldl_modify (ids : List VarId) (change : Variable → Variable) (table : VarTable) :
    (ids.foldl (fun table id => table.modify id change) table).size = table.size := by
  induction ids generalizing table with
  | nil => rfl
  | cons id ids induction => rw [List.foldl_cons, induction, size_modify]

theorem get?_add (table : VarTable) (entry : Variable) (id : VarId) :
    (table.add entry).1.get? id = if id = table.size then some entry else table.get? id := by
  rcases Nat.lt_trichotomy id table.size with old | rfl | beyond
  · rw [if_neg (Nat.ne_of_lt old), get?_add_of_lt entry old]
  · rw [if_pos rfl, get?_add_self]
  · rw [if_neg (Nat.ne_of_gt beyond), get?, get?,
      Array.getElem?_eq_none (Nat.le_of_lt beyond), Array.getElem?_eq_none]
    have count := size_add table entry
    rw [size] at count
    rw [count]
    exact beyond

/-- An entry of an aggregate's table is an old one that may have got an aggregate, or the new one. -/
theorem exists_of_aggregate {members : List VarId} {id : VarId} {entry : Variable}
    (found : (table.aggregate members).1.get? id = some entry) :
    ∃ old parent, entry = { old with parent } ∧ (table.get? id = some old ∨
      id = table.size ∧ old.value = none ∧ old.declaration = none ∧ old.members = members) := by
  have regrouped : ∀ {first second : Variable}, (∃ parent, second = { first with parent }) →
      ∃ parent, { second with parent := some table.size } = { first with parent } := by
    rintro first second ⟨parent, rfl⟩
    exact ⟨some table.size, rfl⟩
  obtain ⟨old, known, parent, same⟩ := exists_of_foldl_modify
    (fun old entry => ∃ parent, entry = { old with parent }) (fun entry => ⟨entry.parent, rfl⟩)
    regrouped members found
  refine ⟨old, parent, same, ?_⟩
  have entries := (get?_add table _ id).symm.trans known
  split at entries
  · cases entries
    exact .inr ⟨‹_›, rfl, rfl, rfl⟩
  · exact .inl entries

/-- Members that are grouped are variables of the table. -/
theorem lt_of_allFree {members : List VarId} (free : table.allFree members) {member : VarId}
    (listed : member ∈ members) : member < table.size := by
  obtain ⟨_, there, _⟩ := (Option.any_eq_true _ _).mp (List.all_eq_true.mp free member listed)
  exact lt_of_get? there

/-- Variables are only added, and members stay in their aggregates. -/
structure Grows (before after : VarTable) : Prop where
  /-- No variable is lost. -/
  size : before.size ≤ after.size
  /-- Aggregates keep their members. -/
  members : ∀ id < before.size, after.members id = before.members id

theorem Grows.refl (table : VarTable) : table.Grows table :=
  ⟨Nat.le_refl _, fun _ _ => rfl⟩

theorem Grows.trans {before middle after : VarTable} (first : before.Grows middle)
    (second : middle.Grows after) : before.Grows after :=
  ⟨Nat.le_trans first.size second.size, fun id inside =>
    (second.members id (Nat.lt_of_lt_of_le inside first.size)).trans (first.members id inside)⟩

/-- Members are variables that have no members themselves. -/
def IsFlat (table : VarTable) : Prop :=
  ∀ {id member : VarId}, member ∈ table.members id → member < table.size ∧ table.members member = []

theorem exists_of_lt {id : VarId} (inside : id < table.size) :
    ∃ entry, table.get? id = some entry :=
  ⟨_, Array.getElem?_eq_getElem inside⟩

theorem members_of_get? {id : VarId} {entry : Variable} (found : table.get? id = some entry) :
    table.members id = entry.members := by
  rw [members, found]
  rfl

theorem exists_of_mem_members {id member : VarId} (listed : member ∈ table.members id) :
    ∃ entry, table.get? id = some entry ∧ member ∈ entry.members := by
  cases found : table.get? id with
  | none =>
      rw [members, found] at listed
      exact absurd listed List.not_mem_nil
  | some entry => exact ⟨entry, rfl, members_of_get? found ▸ listed⟩

theorem kind_modify (change : Variable → Variable) (same : ∀ entry, (change entry).kind = entry.kind)
    (table : VarTable) (id : VarId) : (table.modify id change).kind = table.kind := by
  funext other
  rw [kind, get?_modify, kind]
  by_cases here : id = other
  · cases table.get? other <;> simp [here, same]
  · simp [here]

theorem members_modify (change : Variable → Variable)
    (same : ∀ entry, (change entry).members = entry.members) (table : VarTable) (id : VarId) :
    (table.modify id change).members = table.members := by
  funext other
  rw [members, get?_modify, members]
  by_cases here : id = other
  · cases table.get? other <;> simp [here, same]
  · simp [here]

theorem kind_foldl_modify (change : Variable → Variable)
    (same : ∀ entry, (change entry).kind = entry.kind) (ids : List VarId) (table : VarTable) :
    (ids.foldl (fun table id => table.modify id change) table).kind = table.kind := by
  induction ids generalizing table with
  | nil => rfl
  | cons id ids induction => rw [List.foldl_cons, induction, kind_modify change same]

theorem members_foldl_modify (change : Variable → Variable)
    (same : ∀ entry, (change entry).members = entry.members) (ids : List VarId) (table : VarTable) :
    (ids.foldl (fun table id => table.modify id change) table).members = table.members := by
  induction ids generalizing table with
  | nil => rfl
  | cons id ids induction => rw [List.foldl_cons, induction, members_modify change same]

theorem kind_add_of_lt {id : VarId} (entry : Variable) (old : id < table.size) :
    (table.add entry).1.kind id = table.kind id := by
  rw [kind, get?_add_of_lt entry old, kind]

theorem kind_add_self (table : VarTable) (entry : Variable) :
    (table.add entry).1.kind table.size = entry.kind := by
  rw [kind, get?_add_self]

theorem members_add_self (table : VarTable) (entry : Variable) :
    (table.add entry).1.members table.size = entry.members :=
  members_of_get? (get?_add_self _ _)

/-- An aggregate is a variable of the class of its first member, and no class changes. -/
theorem exists_aggregate_eq (table : VarTable) (members : List VarId) : ∃ entry : Variable,
    entry.members = members ∧ entry.kind = (match members with
      | first :: _ => table.kind first
      | [] => .localVar) ∧
    (table.aggregate members).1.kind = (table.add entry).1.kind ∧
    (table.aggregate members).1.members = (table.add entry).1.members :=
  ⟨_, rfl, rfl,
    kind_foldl_modify (fun entry => { entry with parent := some table.size }) (fun _ => rfl) members _,
    members_foldl_modify (fun entry => { entry with parent := some table.size }) (fun _ => rfl)
      members _⟩

/-- A variable and its members are locals. -/
def IsLocal (table : VarTable) (id : VarId) : Prop :=
  table.kind id = .localVar ∧ ∀ member ∈ table.members id, table.kind member = .localVar

/-- An aggregate of locals is one. -/
theorem isLocal_of_group {members : List VarId}
    (locals : ∀ member ∈ members, table.kind member = .localVar) {after : VarTable} {id : VarId}
    (grouped : table.group members = (after, some id)) : after.IsLocal id := by
  have inside : ∀ member ∈ members, member < table.size := by
    intro member listed
    by_contra outside
    have kind := locals member listed
    rw [VarTable.kind, get?, Array.getElem?_eq_none (Nat.not_lt.mp outside)] at kind
    cases kind
  unfold group at grouped
  split at grouped
  swap
  · cases grouped
  obtain ⟨rfl, same⟩ := Prod.mk.inj grouped
  obtain rfl := Option.some.inj same
  obtain ⟨entry, listed, kind, kinds, lists⟩ := table.exists_aggregate_eq members
  show (table.aggregate members).1.IsLocal table.size
  rw [IsLocal, kinds, lists, kind_add_self, members_add_self, kind, listed]
  refine ⟨?_, fun member there => ?_⟩
  · cases members with
    | nil => rfl
    | cons first others => exact locals first List.mem_cons_self
  · rw [kind_add_of_lt _ (inside member there)]
    exact locals member there

theorem IsLocal.foldl_modify {id : VarId} (isLocal : table.IsLocal id)
    (change : Variable → Variable) (kinds : ∀ entry, (change entry).kind = entry.kind)
    (lists : ∀ entry, (change entry).members = entry.members) (ids : List VarId) :
    (ids.foldl (fun table id => table.modify id change) table).IsLocal id := by
  rw [IsLocal, kind_foldl_modify change kinds, members_foldl_modify change lists]
  exact isLocal

end VarTable

namespace ScriptTree

/-- Nodes and variables are only added, and nodes keep what they keep for good. -/
structure Extends (before after : ScriptTree) : Prop where
  /-- No node is lost. -/
  size : before.size ≤ after.size
  /-- Nodes keep their outlines. -/
  outline : ∀ id < before.size, (after.node id).outline = (before.node id).outline
  /-- No variable is lost. -/
  vars : before.vars.Grows after.vars
  /-- The tree is printed the same way. -/
  kind : after.kind = before.kind

/-- An expression that evaluates to something. -/
structure IsValue (catalog : ActionCatalog) (tree : ScriptTree) (id : NodeId) : Prop where
  /-- It is a node of the tree. -/
  inside : id < tree.size
  /-- It is an expression. -/
  expression : (tree.node id).isExpression
  /-- It has a result. -/
  plain : (tree.node id).isCommand catalog = false

/-- A node of the tree that declares a variable. -/
def IsDeclaration (tree : ScriptTree) (id : NodeId) : Prop :=
  id < tree.size ∧ ∃ var init pending, tree.node id = .declaration var init pending

/-- A statement of the tree that changes a variable by one. -/
def IsStep (tree : ScriptTree) (id : NodeId) : Prop :=
  id < tree.size ∧ ∃ expression op before place, tree.node id = .statement expression ∧
    expression < tree.size ∧ tree.node expression = .step op before place

/-- A statement of the tree that stands nowhere. -/
structure IsUnplaced (tree : ScriptTree) (id : NodeId) : Prop where
  /-- It is a node of the tree. -/
  inside : id < tree.size
  /-- It is no expression. -/
  statement : (tree.node id).isExpression = false
  /-- It is not the body of the subroutine. -/
  deep : id ≠ root
  /-- No body holds it. -/
  free : ∀ holder, id ∉ tree.children holder

/-- A node may use another one: a value, or a command that it states. -/
def MayUse (catalog : ActionCatalog) (tree : ScriptTree) (id operand : NodeId) : Prop :=
  tree.IsValue catalog operand ∨
    operand < tree.size ∧ (tree.node operand).isExpression ∧ tree.node id = .statement operand

/-- Operands are values, except that a statement may use a command; child statements are no
expressions; and variables stand for values and know their declarations. -/
structure IsSound (catalog : ActionCatalog) (tree : ScriptTree) : Prop where
  /-- Every node has a link. -/
  sized : tree.parents.size = tree.size
  /-- The root owns statements. -/
  rooted : (tree.node root).body?.isSome
  /-- Operands are values, or commands that are statements. -/
  operands : ∀ {id operand : NodeId}, operand ∈ (tree.node id).operands →
    tree.MayUse catalog id operand
  /-- Child statements are no expressions. -/
  children : ∀ {holder child : NodeId}, child ∈ tree.children holder →
    child < tree.size ∧ (tree.node child).isExpression = false
  /-- Intermediate variables stand for values. -/
  values : ∀ {var : VarId} {entry : Variable} {value : NodeId}, tree.vars.get? var = some entry →
    entry.value = some value → tree.IsValue catalog value
  /-- Declarations of variables are declarations. -/
  declared : ∀ {var : VarId} {declaration : NodeId},
    tree.vars.declaration? var = some declaration → tree.IsDeclaration declaration
  /-- Members have no members. -/
  flat : tree.vars.IsFlat

section Extends

variable {catalog : ActionCatalog} {before middle after : ScriptTree} {id : NodeId}

theorem Extends.refl (tree : ScriptTree) : tree.Extends tree :=
  ⟨Nat.le_refl _, fun _ _ => rfl, .refl _, rfl⟩

theorem Extends.trans (first : before.Extends middle) (second : middle.Extends after) :
    before.Extends after where
  size := Nat.le_trans first.size second.size
  outline := fun id inside =>
    (second.outline id (Nat.lt_of_lt_of_le inside first.size)).trans (first.outline id inside)
  vars := first.vars.trans second.vars
  kind := second.kind.trans first.kind

variable (extension : before.Extends after)

include extension

theorem Extends.isValue (value : before.IsValue catalog id) : after.IsValue catalog id where
  inside := Nat.lt_of_lt_of_le value.inside extension.size
  expression := by
    rw [Node.isExpression_congr (extension.outline id value.inside)]
    exact value.expression
  plain := by
    rw [Node.isCommand_congr catalog (extension.outline id value.inside)]
    exact value.plain

theorem Extends.owns (inside : id < before.size) :
    (after.node id).body?.isSome = (before.node id).body?.isSome :=
  Node.owns_congr (extension.outline id inside)

theorem Extends.statement {value : NodeId} (inside : id < before.size)
    (here : before.node id = .statement value) : after.node id = .statement value := by
  refine Node.outline_eq_statement ?_
  rw [extension.outline id inside, here]
  rfl

theorem Extends.mayUse {operand : NodeId} (inside : id < before.size)
    (uses : before.MayUse catalog id operand) : after.MayUse catalog id operand := by
  rcases uses with value | ⟨there, expression, states⟩
  · exact .inl (extension.isValue value)
  · refine .inr ⟨Nat.lt_of_lt_of_le there extension.size, ?_, extension.statement inside states⟩
    rw [Node.isExpression_congr (extension.outline operand there)]
    exact expression

theorem Extends.isDeclaration (declaration : before.IsDeclaration id) : after.IsDeclaration id := by
  obtain ⟨inside, var, init, pending, here⟩ := declaration
  have same := extension.outline id inside
  rw [here] at same
  obtain ⟨init, pending, there⟩ := Node.outline_eq_declaration same
  exact ⟨Nat.lt_of_lt_of_le inside extension.size, var, init, pending, there⟩

theorem Extends.isStep (step : before.IsStep id) : after.IsStep id := by
  obtain ⟨inside, expression, op, behind, place, here, deeper, there⟩ := step
  have same := extension.outline expression deeper
  rw [there] at same
  obtain ⟨_, found⟩ := Node.outline_eq_step same
  exact ⟨Nat.lt_of_lt_of_le inside extension.size, expression, op, _, place,
    extension.statement inside here, Nat.lt_of_lt_of_le deeper extension.size, found⟩

/-- A tree stays sound if its operands, statements and variables come from before or are sound
themselves. -/
theorem IsSound.of_changes (sound : before.IsSound catalog)
    (sized : after.parents.size = after.size)
    (operands : ∀ {id operand : NodeId}, operand ∈ (after.node id).operands →
      operand ∈ (before.node id).operands ∨ after.MayUse catalog id operand)
    (children : ∀ {holder child : NodeId}, child ∈ after.children holder →
      (∃ former, child ∈ before.children former) ∨
        child < after.size ∧ (after.node child).isExpression = false)
    (values : ∀ {var : VarId} {entry : Variable} {value : NodeId},
      after.vars.get? var = some entry → entry.value = some value →
        (∃ former old, before.vars.get? former = some old ∧ old.value = some value) ∨
          after.IsValue catalog value)
    (declared : ∀ {var : VarId} {declaration : NodeId},
      after.vars.declaration? var = some declaration →
        (∃ former, before.vars.declaration? former = some declaration) ∨
          after.IsDeclaration declaration)
    (flat : after.vars.IsFlat) : after.IsSound catalog where
  sized := sized
  rooted := by
    rw [extension.owns (lt_of_body? sound.rooted)]
    exact sound.rooted
  operands := by
    intro id operand used
    rcases operands used with kept | new
    · exact extension.mayUse (Below.lt (.inl kept)) (sound.operands kept)
    · exact new
  children := by
    intro holder child held
    rcases children held with ⟨former, there⟩ | sound_child
    · obtain ⟨inside, plain⟩ := sound.children there
      refine ⟨Nat.lt_of_lt_of_le inside extension.size, ?_⟩
      rw [Node.isExpression_congr (extension.outline child inside)]
      exact plain
    · exact sound_child
  values := by
    intro var entry value found valued
    rcases values found valued with ⟨former, old, there, same⟩ | sound_value
    · exact extension.isValue (sound.values there same)
    · exact sound_value
  declared := by
    intro var declaration found
    rcases declared found with ⟨former, there⟩ | sound_declaration
    · exact extension.isDeclaration (sound.declared there)
    · exact sound_declaration
  flat := flat

end Extends

section Rearranging

variable {catalog : ActionCatalog} {tree before middle after : ScriptTree} {extra more : List NodeId}

/-- Only child statements change, and none but some given ones come in. -/
structure Rearranges (extra : List NodeId) (before after : ScriptTree) : Prop where
  /-- No node is added. -/
  size : after.size = before.size
  /-- No link is added. -/
  sized : after.parents.size = before.parents.size
  /-- Nodes change at most their child statements. -/
  node : ∀ id, ∃ children, after.node id = (before.node id).holding children
  /-- Child statements were child statements before or are the given ones. -/
  child : ∀ {holder child : NodeId}, child ∈ after.children holder →
    (∃ former, child ∈ before.children former) ∨ child ∈ extra
  /-- Variables stay. -/
  vars : after.vars = before.vars
  /-- The tree is printed the same way. -/
  kind : after.kind = before.kind
  /-- The signature stays. -/
  signature : after.signature = before.signature
  /-- The indentation stays. -/
  indent : after.indent = before.indent

namespace Rearranges

theorem refl (tree : ScriptTree) (extra : List NodeId) : Rearranges extra tree tree where
  size := rfl
  sized := rfl
  node := fun id => ⟨(tree.node id).statements, (Node.holding_statements _).symm⟩
  child := fun held => .inl ⟨_, held⟩
  vars := rfl
  kind := rfl
  signature := rfl
  indent := rfl

theorem trans (first : Rearranges extra before middle) (second : Rearranges more middle after) :
    Rearranges (extra ++ more) before after where
  size := second.size.trans first.size
  sized := second.sized.trans first.sized
  node := by
    intro id
    obtain ⟨earlier, there⟩ := first.node id
    obtain ⟨later, here⟩ := second.node id
    exact ⟨later, by rw [here, there, Node.holding_holding]⟩
  child := by
    intro holder child held
    rcases second.child held with ⟨former, there⟩ | new
    · rcases first.child there with old | new
      · exact .inl old
      · exact .inr (List.mem_append_left _ new)
    · exact .inr (List.mem_append_right _ new)
  vars := second.vars.trans first.vars
  kind := second.kind.trans first.kind
  signature := second.signature.trans first.signature
  indent := second.indent.trans first.indent

theorem mono (rearranges : Rearranges extra before after) (included : extra ⊆ more) :
    Rearranges more before after :=
  { rearranges with child := fun held => (rearranges.child held).imp_right fun new => included new }

theorem setParent (rearranges : Rearranges extra before after) (id : NodeId)
    (owner : Option NodeId) : Rearranges extra before (after.setParent id owner) :=
  { rearranges with
    sized := (size_parents_setParent _ _ _).trans rearranges.sized }

/-- The statements of one body change. -/
theorem modify (tree : ScriptTree) (parent : NodeId) (change : List NodeId → List NodeId)
    (kept : ∀ child ∈ change (tree.children parent),
      child ∈ tree.children parent ∨ child ∈ extra) :
    Rearranges extra tree (tree.modify parent (Node.mapBody fun body =>
      { body with children := change body.children })) := by
  have nodes := (node_modifyBody tree parent fun body =>
    { body with children := change body.children }).trans
      (congrArg (Function.update tree.node parent) (mapBody_children change rfl))
  refine ⟨size_modify _ _ _, rfl, fun id => ?_, fun {holder child} held => ?_, rfl, rfl, rfl, rfl⟩
  · rw [nodes, Function.update_apply]
    split
    · rename_i same
      exact ⟨_, by rw [same]⟩
    · exact ⟨(tree.node id).statements, (Node.holding_statements _).symm⟩
  · rw [children_eq, nodes, Function.update_apply] at held
    split at held
    · have owns : (tree.node parent).body?.isSome := by
        have owned := Node.owns_of_mem_statements held
        rwa [Node.body?_mapBody, Option.isSome_map] at owned
      rw [Node.statements_holding owns] at held
      exact (kept child held).imp_left fun there => ⟨parent, there⟩
    · exact .inl ⟨holder, held⟩

theorem detach (tree : ScriptTree) (child : NodeId) : Rearranges [] tree (tree.detach child).1 := by
  unfold ScriptTree.detach
  split
  · rename_i parent index _
    exact (modify tree parent (fun children => children.eraseIdx index) fun _ listed =>
      .inl (List.mem_of_mem_eraseIdx listed)).setParent _ _
  · exact .refl _ _

theorem replace (tree : ScriptTree) (old new : NodeId) :
    Rearranges [new] tree (tree.replace old new).1 := by
  unfold ScriptTree.replace
  split
  · rename_i parent index _
    refine ((modify tree parent (fun children => children.set index new)
      fun child listed => ?_).setParent _ _).setParent _ _
    rcases List.mem_or_eq_of_mem_set listed with there | same
    · exact .inl there
    · exact .inr (List.mem_singleton.mpr same)
  · exact .refl _ _

theorem append (tree : ScriptTree) (parent child : NodeId) :
    Rearranges [child] tree (tree.append parent child) := by
  unfold ScriptTree.append
  split
  · exact (modify tree parent (fun children => children ++ [child]) fun _ listed =>
      List.mem_append.mp listed).setParent _ _
  · exact .refl _ _

theorem insert (tree : ScriptTree) (parent index child : NodeId) :
    Rearranges [child] tree (tree.insert parent index child) := by
  unfold ScriptTree.insert
  split
  · refine (modify tree parent (fun children => children.take index ++ child :: children.drop index)
      fun other listed => ?_).setParent _ _
    rcases List.mem_append.mp listed with front | back
    · exact .inl (List.mem_of_mem_take front)
    · rcases List.mem_cons.mp back with same | back
      · exact .inr (List.mem_singleton.mpr same)
      · exact .inl (List.mem_of_mem_drop back)
  · exact .refl _ _

theorem move (tree : ScriptTree) (host : NodeId) (statements : List NodeId) :
    Rearranges statements tree (statements.foldl (ScriptTree.move host) tree) := by
  induction statements generalizing tree with
  | nil => exact .refl _ _
  | cons statement statements induction =>
      have first := (detach tree statement).trans (append (tree.detach statement).1 host statement)
      exact (first.trans (induction _)).mono (List.Subset.refl _)

theorem replaceAll (tree : ScriptTree) (new : NodeId) (old : List NodeId) :
    Rearranges [new] tree (tree.replaceAll new old) := by
  have detaching : ∀ (others : List NodeId) (tree : ScriptTree), Rearranges [] tree
      (others.foldl (fun tree other => (tree.detach other).1) tree) := by
    intro others
    induction others with
    | nil => exact fun tree => .refl tree []
    | cons other others induction => exact fun tree => (detach tree other).trans (induction _)
  cases old with
  | nil => exact .refl _ _
  | cons first others => exact (replace tree first new).trans (detaching others _)

variable (rearranges : Rearranges extra before after)

include rearranges

theorem operands (id : NodeId) : (after.node id).operands = (before.node id).operands := by
  obtain ⟨children, same⟩ := rearranges.node id
  rw [same, Node.operands_mapBody]

theorem outline (id : NodeId) : (after.node id).outline = (before.node id).outline := by
  obtain ⟨children, same⟩ := rearranges.node id
  rw [same, Node.outline_mapBody]

theorem isExtension : before.Extends after where
  size := Nat.le_of_eq rearranges.size.symm
  outline := fun id _ => rearranges.outline id
  vars := rearranges.vars ▸ .refl _
  kind := rearranges.kind

theorem isSound (sound : before.IsSound catalog)
    (statements : ∀ child ∈ extra, child < before.size ∧ (before.node child).isExpression = false) :
    after.IsSound catalog := by
  refine sound.of_changes rearranges.isExtension ?_ ?_ ?_ ?_ ?_ (rearranges.vars ▸ sound.flat)
  · rw [rearranges.sized, rearranges.size, sound.sized]
  · intro id operand used
    rw [rearranges.operands] at used
    exact .inl used
  · intro holder child held
    refine (rearranges.child held).imp_right fun new => ?_
    obtain ⟨inside, plain⟩ := statements child new
    rw [rearranges.size, Node.isExpression_congr (rearranges.outline child)]
    exact ⟨inside, plain⟩
  · intro var entry value found valued
    rw [rearranges.vars] at found
    exact .inl ⟨var, entry, found, valued⟩
  · intro var declaration found
    rw [rearranges.vars] at found
    exact .inl ⟨var, found⟩

end Rearranges
end Rearranging

section Entries

/-- A variable may have become another one: its members are the same, and what it stands for and its
declaration are, too, or are sound. -/
structure Renews (catalog : ActionCatalog) (tree : ScriptTree) (old entry : Variable) : Prop where
  /-- Members stay. -/
  members : entry.members = old.members
  /-- It stands for the same value or for a sound one. -/
  value : ∀ value, entry.value = some value → old.value = some value ∨ tree.IsValue catalog value
  /-- Its declaration is the same or a sound one. -/
  declaration : ∀ declaration, entry.declaration = some declaration →
    old.declaration = some declaration ∨ tree.IsDeclaration declaration

/-- A new variable is sound. -/
structure Enters (catalog : ActionCatalog) (tree : ScriptTree) (entry : Variable) : Prop where
  /-- What it stands for is a value. -/
  value : ∀ value, entry.value = some value → tree.IsValue catalog value
  /-- It has no declaration yet. -/
  declaration : entry.declaration = none
  /-- Its members have no members. -/
  members : ∀ member ∈ entry.members,
    member < tree.vars.size ∧ tree.vars.members member = []

/-- A change of the variables in the course of a recovery. -/
inductive VarEdit (catalog : ActionCatalog) (tree : ScriptTree) : VarTable → Prop
  /-- A variable of its own is added. -/
  | add {entry : Variable}
      (values : ∀ value, entry.value = some value → tree.IsValue catalog value)
      (undeclared : entry.declaration = none) (free : entry.parent = none)
      (single : entry.members = []) : VarEdit catalog tree (tree.vars.add entry).1
  /-- Variables without members become members of an aggregate. -/
  | aggregate {members : List VarId}
      (leaves : ∀ member ∈ members, member < tree.vars.size ∧ tree.vars.members member = []) :
      VarEdit catalog tree (tree.vars.aggregate members).1
  /-- A variable is used up or stands for another value. -/
  | revalue {var : VarId} {change : Variable → Variable}
      (kept : ∀ entry, ∃ value consumed, change entry = { entry with value, consumed } ∧
        ∀ found, value = some found → entry.value = some found ∨ tree.IsValue catalog found) :
      VarEdit catalog tree (tree.vars.modify var change)
  /-- A variable gets its declaration; in a function only locals do. -/
  | declare {var : VarId} {declaration : NodeId} (declares : tree.IsDeclaration declaration)
      (isLocal : tree.kind = .function → tree.vars.IsLocal var) :
      VarEdit catalog tree
        (tree.vars.modify var fun entry => { entry with declaration := some declaration })
  /-- A variable loses its declaration. -/
  | undeclare (var : VarId) :
      VarEdit catalog tree (tree.vars.modify var fun entry => { entry with declaration := none })
  /-- A declared variable and its members become intermediate. -/
  | discard {var : VarId} (declared : tree.vars.declaration? var ≠ none) :
      VarEdit catalog tree ((var :: tree.vars.members var).foldl
        (fun table id => table.modify id fun entry =>
          { entry with kind := .temp, declaration := none, consumed := true }) tree.vars)

variable {catalog : ActionCatalog} {tree : ScriptTree} {vars : VarTable}

theorem Renews.refl (entry : Variable) : tree.Renews catalog entry entry :=
  ⟨rfl, fun _ => .inl, fun _ => .inl⟩

/-- Entries of a table with one changed variable. -/
theorem renews_of_modify {var : VarId} {change : Variable → Variable} {id : VarId} {entry : Variable}
    (found : (tree.vars.modify var change).get? id = some entry)
    (kept : ∀ entry, tree.Renews catalog entry (change entry)) :
    ∃ old, tree.vars.get? id = some old ∧ tree.Renews catalog old entry := by
  rw [VarTable.get?_modify] at found
  split at found
  · obtain ⟨old, known, rfl⟩ := Option.map_eq_some_iff.mp found
    exact ⟨old, known, kept old⟩
  · exact ⟨entry, found, .refl entry⟩

/-- Entries are former ones that have changed soundly, or the new one. -/
theorem VarEdit.cases (edit : VarEdit catalog tree vars) {id : VarId} {entry : Variable}
    (found : vars.get? id = some entry) :
    (∃ old, tree.vars.get? id = some old ∧ tree.Renews catalog old entry) ∨
      id = tree.vars.size ∧ tree.Enters catalog entry := by
  cases edit with
  | @add new values undeclared free single =>
      rw [VarTable.get?_add] at found
      split at found
      · cases found
        exact .inr ⟨‹_›, values, undeclared, by simp [single]⟩
      · exact .inl ⟨entry, found, .refl entry⟩
  | aggregate leaves =>
      obtain ⟨old, parent, rfl, known | ⟨here, valueless, undeclared, rfl⟩⟩ :=
        VarTable.exists_of_aggregate found
      · exact .inl ⟨old, known, rfl, fun _ => .inl, fun _ => .inl⟩
      · refine .inr ⟨here, ⟨fun value valued => ?_, undeclared, leaves⟩⟩
        cases valueless.symm.trans valued
  | revalue kept =>
      refine .inl (renews_of_modify found fun entry => ?_)
      obtain ⟨value, consumed, same, sound⟩ := kept entry
      rw [same]
      exact ⟨rfl, sound, fun _ => .inl⟩
  | declare declares isLocal =>
      refine .inl (renews_of_modify found fun entry => ⟨rfl, fun _ => .inl, ?_⟩)
      rintro _ ⟨⟩
      exact .inr declares
  | undeclare var =>
      refine .inl (renews_of_modify found fun entry => ⟨rfl, fun _ => .inl, ?_⟩)
      rintro _ ⟨⟩
  | discard declared =>
      refine .inl (VarTable.exists_of_foldl_modify (tree.Renews catalog) .refl
        (fun renews => ?_) _ found)
      exact ⟨renews.members, renews.value, fun _ none_declared => by cases none_declared⟩

theorem VarEdit.size_le (edit : VarEdit catalog tree vars) : tree.vars.size ≤ vars.size := by
  cases edit with
  | _ => simp

theorem VarEdit.grows (edit : VarEdit catalog tree vars) : tree.vars.Grows vars := by
  refine ⟨edit.size_le, fun id inside => ?_⟩
  obtain ⟨entry, found⟩ := VarTable.exists_of_lt (Nat.lt_of_lt_of_le inside edit.size_le)
  rcases edit.cases found with ⟨old, known, renews⟩ | ⟨rfl, _⟩
  · rw [VarTable.members_of_get? found, VarTable.members_of_get? known, renews.members]
  · exact absurd inside (Nat.lt_irrefl _)

theorem VarEdit.isFlat (edit : VarEdit catalog tree vars) (flat : tree.vars.IsFlat) :
    vars.IsFlat := by
  intro id member listed
  have grows := edit.grows
  obtain ⟨entry, found, there⟩ := VarTable.exists_of_mem_members listed
  obtain ⟨inside, single⟩ : member < tree.vars.size ∧ tree.vars.members member = [] := by
    rcases edit.cases found with ⟨old, known, renews⟩ | ⟨_, enters⟩
    · rw [renews.members] at there
      exact flat (VarTable.members_of_get? known ▸ there)
    · exact enters.members member there
  exact ⟨Nat.lt_of_lt_of_le inside grows.size, (grows.members member inside).trans single⟩

theorem VarEdit.isSound (edit : VarEdit catalog tree vars) (sound : tree.IsSound catalog) :
    { tree with vars }.IsSound catalog := by
  have extension : tree.Extends { tree with vars } :=
    ⟨Nat.le_refl _, fun _ _ => rfl, edit.grows, rfl⟩
  refine sound.of_changes extension sound.sized (fun used => .inl used)
    (fun held => .inl ⟨_, held⟩) (fun {var entry value} found valued => ?_)
    (fun {var declaration} found => ?_) (edit.isFlat sound.flat)
  · rcases edit.cases found with ⟨old, known, renews⟩ | ⟨_, enters⟩
    · exact (renews.value value valued).imp (fun same => ⟨var, old, known, same⟩)
        extension.isValue
    · exact .inr (extension.isValue (enters.value value valued))
  · obtain ⟨entry, there, here⟩ := Option.bind_eq_some_iff.mp found
    rcases edit.cases there with ⟨old, known, renews⟩ | ⟨_, enters⟩
    · refine (renews.declaration declaration here).imp (fun same => ⟨var, ?_⟩)
        extension.isDeclaration
      rw [VarTable.declaration?, known]
      exact same
    · cases enters.declaration.symm.trans here

end Entries

/-- The statements of a body from an index on move into a block that takes their place. -/
def wrapped (tree : ScriptTree) (holder : NodeId) (first : Nat) (block : NodeId) : ScriptTree :=
  (((tree.children holder).drop first).foldl (move block) tree).insert holder first block

/-- A change of the tree in the course of a recovery. -/
inductive Edit (catalog : ActionCatalog) (before : ScriptTree) : ScriptTree → Prop
  /-- A node of values is added, without statements unless it copies a deferred argument. -/
  | add {node : Node} (values : ∀ operand ∈ node.operands, before.IsValue catalog operand)
      (plain : node.isCommand catalog = false)
      (bare : node.statements = [] ∧ node.isClosure = false ∨
        node.isClosure ∧ ∃ original, node = before.node original) : Edit catalog before (before.add node).1
  /-- The variables change. -/
  | vars {vars : VarTable} (edit : VarEdit catalog before vars) :
      Edit catalog before { before with vars }
  /-- A node is filled in: statements get values as operands. -/
  | fill {id : NodeId} {change : Node → Node}
      (outline : (change (before.node id)).outline = (before.node id).outline)
      (statements : (change (before.node id)).statements = (before.node id).statements)
      (operands : ∀ operand ∈ (change (before.node id)).operands,
        operand ∈ (before.node id).operands ∨
          before.IsValue catalog operand ∧ (before.node id).isExpression = false) :
      Edit catalog before (before.modify id change)
  /-- A value links to another user. -/
  | link {value : NodeId} (user : NodeId) (sound : before.IsValue catalog value) :
      Edit catalog before (before.setParent value (some user))
  /-- A statement without statements of its own is attached to one that stands nowhere yet. -/
  | hold {holder child : NodeId} (unplaced : before.IsUnplaced child)
      (bare : before.children child = []) (owns : (before.node holder).body?.isSome)
      (above : before.IsUnplaced holder) (different : holder ≠ child) :
      Edit catalog before (before.append holder child)
  /-- A declaration or a change by one is taken out. -/
  | detach {statement : NodeId}
      (light : before.IsDeclaration statement ∨ before.IsStep statement) :
      Edit catalog before (before.detach statement).1
  /-- A statement takes the place of a declaration. -/
  | replace {declaration statement : NodeId} (declares : before.IsDeclaration declaration)
      (unplaced : before.IsUnplaced statement) (bare : before.children statement = []) :
      Edit catalog before (before.replace declaration statement).1
  /-- The statements of a body from a declaration on move into a block that takes their place. -/
  | wrap {holder block : NodeId} {first : Nat} (inside : first ≤ (before.children holder).length)
      (unplaced : before.IsUnplaced block)
      (bare : before.children block = []) (owns : (before.node block).body?.isSome)
      (above : (before.node holder).body?.isSome) (different : holder ≠ block)
      (declares : ∀ child, (before.children holder)[first]? = some child → before.IsDeclaration child) :
      Edit catalog before (before.wrapped holder first block)

section Edits

variable {catalog : ActionCatalog} {tree before after : ScriptTree}

theorem Extends.add (tree : ScriptTree) (node : Node) : tree.Extends (tree.add node).1 := by
  obtain ⟨parents, same⟩ := tree.exists_add_eq node
  refine ⟨by simp, fun id inside => ?_, by rw [vars_add]; exact .refl _, by simp⟩
  rw [node_add_of_lt node inside]

/-- A node that uses values, or states a command, may be added with statements of other nodes. -/
theorem IsSound.add (sound : tree.IsSound catalog) (node : Node)
    (operands : ∀ operand ∈ node.operands, tree.IsValue catalog operand ∨
      operand < tree.size ∧ (tree.node operand).isExpression ∧ node = .statement operand)
    (statements : ∀ child ∈ node.statements, ∃ former, child ∈ tree.children former) :
    (tree.add node).1.IsSound catalog := by
  have extension := Extends.add tree node
  have nodes := node_add tree node
  refine sound.of_changes extension ?_ (fun {id operand} used => ?_)
    (fun {holder child} held => ?_) (fun found valued => ?_) (fun found => ?_) ?_
  · rw [size_parents_add, size_add, sound.sized]
  · rw [nodes, Function.update_apply] at used
    split at used
    · rename_i here
      refine .inr ((operands operand used).imp extension.isValue ?_)
      rintro ⟨inside, expression, rfl⟩
      rw [node_add_of_lt _ inside, here, node_add_self]
      exact ⟨by simpa using Nat.lt_succ_of_lt inside, expression, rfl⟩
    · exact .inl used
  · rw [children_eq, nodes, Function.update_apply] at held
    split at held
    · exact .inl (statements child held)
    · exact .inl ⟨holder, held⟩
  · rw [vars_add] at found
    exact .inl ⟨_, _, found, valued⟩
  · rw [vars_add] at found
    exact .inl ⟨_, found⟩
  · rw [vars_add]
    exact sound.flat

theorem Extends.modify {id : NodeId} {change : Node → Node}
    (same : (change (tree.node id)).outline = (tree.node id).outline) :
    tree.Extends (tree.modify id change) := by
  refine ⟨Nat.le_of_eq (size_modify _ _ _).symm, fun other inside => ?_, .refl _, rfl⟩
  by_cases here : id = other
  · subst here
    rw [node_modify_self inside, same]
  · rw [node_modify_of_ne here]

theorem foldl_modifyVar (tree : ScriptTree) (ids : List VarId) (change : Variable → Variable) :
    ids.foldl (fun tree id => tree.modifyVar id change) tree =
      { tree with vars := ids.foldl (fun table id => table.modify id change) tree.vars } := by
  induction ids generalizing tree with
  | nil => rfl
  | cons id ids induction =>
      rw [List.foldl_cons, induction]
      rfl

/-- A change of a node concerns that node, if it is there. -/
theorem node_modify_cases (tree : ScriptTree) (id other : NodeId) (change : Node → Node) :
    (tree.modify id change).node other = tree.node other ∨
      other = id ∧ (tree.modify id change).node other = change (tree.node other) := by
  by_cases same : other = id
  · subst same
    by_cases inside : other < tree.size
    · exact .inr ⟨rfl, node_modify_self inside change⟩
    · have outside : tree.size ≤ other := Nat.not_lt.mp inside
      exact .inl (by rw [node_of_le outside, node_of_le (by simpa using outside)])
  · exact .inl (node_modify_of_ne (Ne.symm same) change)

theorem Edit.isExtension (edit : Edit catalog before after) : before.Extends after := by
  cases edit with
  | add values plain bare => exact .add _ _
  | vars edit => exact ⟨Nat.le_refl _, fun _ _ => rfl, edit.grows, rfl⟩
  | fill outline statements operands => exact .modify outline
  | link user sound => exact ⟨Nat.le_refl _, fun _ _ => rfl, .refl _, rfl⟩
  | hold => exact (Rearranges.append _ _ _).isExtension
  | detach light => exact (Rearranges.detach _ _).isExtension
  | replace => exact (Rearranges.replace _ _ _).isExtension
  | wrap => exact ((Rearranges.move _ _ _).trans (.insert _ _ _ _)).isExtension

/-- An edit changes the variables, or the statements. -/
theorem Edit.vars_cases (edit : Edit catalog before after) :
    VarEdit catalog before after.vars ∨ after.vars = before.vars := by
  cases edit with
  | vars edit => exact .inl edit
  | add => exact .inr (vars_add _ _)
  | fill => exact .inr rfl
  | link => exact .inr rfl
  | hold => exact .inr (Rearranges.append _ _ _).vars
  | detach => exact .inr (Rearranges.detach _ _).vars
  | replace => exact .inr (Rearranges.replace _ _ _).vars
  | wrap => exact .inr ((Rearranges.move _ _ _).trans (.insert _ _ _ _)).vars

theorem Edit.isSound (edit : Edit catalog before after) (sound : before.IsSound catalog) :
    after.IsSound catalog := by
  have extension := edit.isExtension
  cases edit with
  | add values plain bare =>
      refine sound.add _ (fun operand used => .inl (values operand used)) fun child held => ?_
      rcases bare with ⟨empty, _⟩ | ⟨_, original, rfl⟩
      · exact absurd (empty ▸ held) List.not_mem_nil
      · exact ⟨original, held⟩
  | vars edit => exact edit.isSound sound
  | @fill id change outline statements operands =>
      refine sound.of_changes extension ?_ (fun {other operand} used => ?_)
        (fun {holder child} held => ?_) (fun found valued => .inl ⟨_, _, found, valued⟩)
        (fun found => .inl ⟨_, found⟩) sound.flat
      · exact sound.sized.trans (size_modify before id change).symm
      · rcases node_modify_cases before id other change with kept | ⟨rfl, changed⟩
        · exact .inl (kept ▸ used)
        · rw [changed] at used
          exact (operands operand used).imp_right fun value => .inl (extension.isValue value.1)
      · rcases node_modify_cases before id holder change with kept | ⟨rfl, changed⟩
        · exact .inl ⟨holder, by rwa [children_eq, kept] at held⟩
        · rw [children_eq, changed, statements] at held
          exact .inl ⟨holder, held⟩
  | link user value =>
      exact sound.of_changes extension ((size_parents_setParent _ _ _).trans sound.sized)
        (fun used => .inl used) (fun held => .inl ⟨_, held⟩)
        (fun found valued => .inl ⟨_, _, found, valued⟩) (fun found => .inl ⟨_, found⟩) sound.flat
  | hold unplaced bare owns above different =>
      exact (Rearranges.append _ _ _).isSound sound
        (by simpa using ⟨unplaced.inside, unplaced.statement⟩)
  | detach light => exact (Rearranges.detach _ _).isSound sound (by simp)
  | replace declares unplaced bare =>
      exact (Rearranges.replace _ _ _).isSound sound
        (by simpa using ⟨unplaced.inside, unplaced.statement⟩)
  | wrap inside unplaced bare owns above different =>
      refine ((Rearranges.move _ _ _).trans (.insert _ _ _ _)).isSound sound fun child listed => ?_
      rcases List.mem_append.mp listed with moved | new
      · exact sound.children (List.mem_of_mem_drop moved)
      · rw [List.mem_singleton.mp new]
        exact ⟨unplaced.inside, unplaced.statement⟩

/-- Changes of the tree one after another. -/
abbrev Edits (catalog : ActionCatalog) : ScriptTree → ScriptTree → Prop :=
  Relation.ReflTransGen (Edit catalog)

theorem Edits.isExtension (edits : Edits catalog before after) : before.Extends after := by
  induction edits with
  | refl => exact .refl _
  | tail _ edit induction => exact induction.trans edit.isExtension

theorem Edits.isSound (edits : Edits catalog before after) (sound : before.IsSound catalog) :
    after.IsSound catalog := by
  induction edits with
  | refl => exact sound
  | tail _ edit induction => exact edit.isSound induction

/-- Variables without members become members of an aggregate if they are free. -/
theorem group_edits (tree : ScriptTree) {members : List VarId}
    (leaves : ∀ member ∈ members, tree.vars.members member = []) :
    tree.Edits catalog { tree with vars := (tree.vars.group members).1 } := by
  unfold VarTable.group
  split
  · rename_i free
    exact .single (.vars (.aggregate fun member listed =>
      ⟨VarTable.lt_of_allFree free listed, leaves member listed⟩))
  · exact .refl

/-- An added expression with a result is a value. -/
theorem isValue_add (tree : ScriptTree) (node : Node) (expression : node.isExpression)
    (plain : node.isCommand catalog = false) : (tree.add node).1.IsValue catalog tree.size :=
  ⟨by simp, by rwa [node_add_self], by rwa [node_add_self]⟩

/-- A node that stands nowhere still does after another one without statements is added. -/
theorem IsUnplaced.add {id : NodeId} {node : Node} (unplaced : tree.IsUnplaced id)
    (empty : node.statements = []) : (tree.add node).1.IsUnplaced id := by
  refine ⟨by simpa using Nat.lt_succ_of_lt unplaced.inside, ?_, unplaced.deep, fun holder held => ?_⟩
  · rw [node_add_of_lt _ unplaced.inside]
    exact unplaced.statement
  · rw [children_eq, node_add, Function.update_apply] at held
    split at held
    · exact absurd (empty ▸ held) List.not_mem_nil
    · exact unplaced.free holder held

end Edits

section Copying

variable {catalog : ActionCatalog} {tree : ScriptTree} {α β : Type}

/-- A step edits a tree and has a result. -/
def Copies (catalog : ActionCatalog) (step : StateM ScriptTree α) (tree : ScriptTree)
    (Good : α → ScriptTree → Prop) : Prop :=
  Edits catalog tree (step.run tree).2 ∧ Good (step.run tree).1 (step.run tree).2

theorem Copies.bind {step : StateM ScriptTree α} {next : α → StateM ScriptTree β}
    {Mid : α → ScriptTree → Prop} {Good : β → ScriptTree → Prop}
    (first : Copies catalog step tree Mid)
    (second : ∀ {value middle}, Edits catalog tree middle → Mid value middle →
      Copies catalog (next value) middle Good) : Copies catalog (step >>= next) tree Good := by
  obtain ⟨edits, good⟩ := second first.1 first.2
  exact ⟨first.1.trans edits, good⟩

theorem Copies.reads {next : ScriptTree → StateM ScriptTree β} {Good : β → ScriptTree → Prop}
    (copies : Copies catalog (next tree) tree Good) : Copies catalog (get >>= next) tree Good :=
  copies

theorem Copies.done {Good : α → ScriptTree → Prop} {value : α} (good : Good value tree) :
    Copies catalog (pure value) tree Good :=
  ⟨.refl, good⟩

/-- A node is like another one, apart from its operands, which are values. -/
structure IsCopy (catalog : ActionCatalog) (original copy : Node) (tree : ScriptTree) : Prop where
  /-- Operands are values. -/
  values : ∀ operand ∈ copy.operands, tree.IsValue catalog operand
  /-- It is an expression, too. -/
  expression : copy.isExpression = original.isExpression
  /-- It has a result, too. -/
  plain : copy.isCommand catalog = original.isCommand catalog
  /-- It owns no statements unless it is the same deferred argument. -/
  bare : copy.statements = [] ∧ copy.isClosure = false ∨ copy.isClosure ∧ ∃ id, copy = tree.node id

/-- Copies of some values are as many values. -/
theorem Copies.mapM {change : NodeId → StateM ScriptTree NodeId} {ids : List NodeId}
    (each : ∀ id ∈ ids, ∀ {middle}, Edits catalog tree middle →
      Copies catalog (change id) middle fun copy after => after.IsValue catalog copy) :
    Copies catalog (ids.mapM change) tree fun copies after =>
      copies.length = ids.length ∧ ∀ copy ∈ copies, after.IsValue catalog copy := by
  induction ids generalizing tree with
  | nil => exact .done ⟨rfl, fun _ listed => absurd listed List.not_mem_nil⟩
  | cons id ids induction =>
      rw [List.mapM_cons]
      refine (each id List.mem_cons_self .refl).bind fun {copy middle} edits value => ?_
      refine (induction fun other listed _ later =>
        each other (List.mem_cons_of_mem _ listed) (edits.trans later)).bind
          fun {copies after} later ⟨many, values⟩ => .done ⟨congrArg (· + 1) many, ?_⟩
      exact List.forall_mem_cons.mpr ⟨later.isExtension.isValue value, values⟩

/-- Operands of an expression are copied one by one. -/
theorem Copies.mapOperandsM {change : NodeId → StateM ScriptTree NodeId} {node : Node} {id : NodeId}
    (here : tree.node id = node) (expression : node.isExpression)
    (each : ∀ operand ∈ node.operands, ∀ {middle}, Edits catalog tree middle →
      Copies catalog (change operand) middle fun copy after => after.IsValue catalog copy) :
    Copies catalog (node.mapOperandsM change) tree (IsCopy catalog node) := by
  cases plain : node.isPlainExpression with
  | true =>
      rw [Node.mapOperandsM_eq change plain]
      refine (Copies.mapM each).bind fun {copies after} _ ⟨many, values⟩ => .done ?_
      have kept := Node.isPlainExpression_iff.mp
        ((Node.isPlainExpression_withOperands copies node).trans plain)
      have bare := Node.body?_eq_none ((Node.isPlainExpression_withOperands copies node).trans plain)
      constructor
      · rwa [Node.operands_withOperands plain many]
      · rw [kept.1, expression]
      · cases node <;> rfl
      · exact .inl ⟨Node.statements_eq_nil bare, kept.2⟩
  | false =>
      have deferred : node.isClosure := by
        rw [Node.isPlainExpression, expression, Bool.true_and] at plain
        exact Bool.not_eq_eq_eq_not.mp plain
      rw [Node.mapOperandsM_eq_pure change plain]
      cases node with
      | closure body =>
          exact .done ⟨fun _ used => absurd used List.not_mem_nil, rfl, rfl, .inr ⟨rfl, id, here.symm⟩⟩
      | _ => cases deferred

/-- A copy of a value is a value. -/
theorem duplicateFrom_copies (sound : tree.IsSound catalog) (depth : Nat) {id : NodeId}
    (value : tree.IsValue catalog id) :
    Copies catalog (duplicateFrom depth id) tree fun copy after => after.IsValue catalog copy := by
  induction depth generalizing tree id with
  | zero => exact .done value
  | succ depth induction =>
      have operands : ∀ operand ∈ (tree.node id).operands, tree.IsValue catalog operand := by
        intro operand used
        rcases sound.operands used with plain | ⟨_, _, states⟩
        · exact plain
        · exact absurd value.expression (by rw [states]; exact Bool.false_ne_true)
      have copied := Copies.mapOperandsM rfl value.expression fun operand used _ edits =>
        induction (edits.isSound sound) (edits.isExtension.isValue (operands operand used))
      refine .reads (copied.bind fun {copy middle} _ is_copy => ?_)
      have plain : copy.isCommand catalog = false := is_copy.plain.trans value.plain
      have expression : copy.isExpression := is_copy.expression.trans value.expression
      exact ⟨.single (.add is_copy.values plain is_copy.bare), isValue_add _ _ expression plain⟩

end Copying

end ScriptTree
end NwScript
