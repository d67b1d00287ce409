import NwScript.Proofs.SoundRecovery

/-!
# Labels of nodes

What a node shows of its own, apart from its operands and statements, is its label: a name, a literal or
a comment.  Edits of a tree attach, detach and complete nodes without relabelling any, and a copy is
labelled like its original.  So a recovered tree has no labels but those that the steps of the recovery
write, and what these may be is a vocabulary.
-/

namespace NwScript

namespace Node

/-- What a node shows of its own.  Of the arguments of an action only the number counts. -/
def label : Node → Node
  | literal value => literal value
  | reference var => reference var
  | member _ field => member 0 field
  | action id name arguments => action id name (List.replicate arguments.length 0)
  | call sub name _ => call sub name []
  | placeholder name => placeholder name
  | comment text => comment text
  | _ => leave

section Labels

variable {node other : Node}

theorem label_outline (node : Node) : node.outline.label = node.label := by
  cases node <;> rfl

/-- Nodes of one outline have one label. -/
theorem label_congr (same : node.outline = other.outline) : node.label = other.label :=
  congr_outline label_outline same

theorem label_withOperands {copies : List NodeId} (many : copies.length = node.operands.length) :
    (node.withOperands copies).label = node.label := by
  cases node with
  | action id name arguments => exact congrArg (action id name <| List.replicate · 0) many
  | _ => rfl

theorem label_settled (node : Node) : node.settled.label = node.label := by
  cases node <;> rfl

theorem label_eq_reference {var : VarId} (labelled : node.label = .reference var) :
    node = .reference var := by
  cases node <;> first | exact labelled | cases labelled

end Labels

end Node

namespace ScriptTree

/-- Every node of a tree shows nothing or what some node of another tree shows. -/
def Echoes (before after : ScriptTree) : Prop :=
  ∀ id, (after.node id).label = .leave ∨ ∃ other, (after.node id).label = (before.node other).label

namespace Echoes

variable {before middle after tree : ScriptTree} {extra : List NodeId} {node : Node} {α β : Type}

theorem refl (tree : ScriptTree) : tree.Echoes tree :=
  fun id => .inr ⟨id, rfl⟩

theorem trans (first : before.Echoes middle) (second : middle.Echoes after) : before.Echoes after := by
  intro id
  rcases second id with silent | ⟨between, later⟩
  · exact .inl silent
  · rcases first between with silent | ⟨other, earlier⟩
    · exact .inl (later.trans silent)
    · exact .inr ⟨other, later.trans earlier⟩

/-- Trees with the same nodes. -/
theorem of_nodes (same : after.nodes = before.nodes) : before.Echoes after := by
  intro id
  refine .inr ⟨id, ?_⟩
  rw [ScriptTree.node, ScriptTree.node, same]

theorem of_rearranges (rearranges : Rearranges extra before after) : before.Echoes after :=
  fun id => .inr ⟨id, Node.label_congr (rearranges.outline id)⟩

theorem modify {id : NodeId} {change : Node → Node}
    (same : (change (tree.node id)).label = (tree.node id).label) :
    tree.Echoes (tree.modify id change) := by
  intro other
  rcases node_modify_cases tree id other change with kept | ⟨rfl, changed⟩
  · exact .inr ⟨other, by rw [kept]⟩
  · exact .inr ⟨other, by rw [changed, same]⟩

theorem setParent (echoes : before.Echoes after) (id : NodeId) (owner : Option NodeId) :
    before.Echoes (after.setParent id owner) :=
  echoes

/-- A node is added that shows nothing or what another one shows. -/
theorem add (echoes : before.Echoes after)
    (known : node.label = .leave ∨ ∃ other, node.label = (before.node other).label) :
    before.Echoes (after.add node).1 := by
  intro id
  rw [node_add, Function.update_apply]
  split
  · exact known
  · exact echoes id

end Echoes

/-- Two trees are printed as the same kind of routine, with the same signature and indentation. -/
structure SharesHeader (before after : ScriptTree) : Prop where
  /-- Both are functions, or both declare the globals. -/
  kind : after.kind = before.kind
  /-- The signatures are the same. -/
  signature : after.signature = before.signature
  /-- Lines are indented alike. -/
  indent : after.indent = before.indent

namespace SharesHeader

variable {before middle after : ScriptTree} {extra : List NodeId}

theorem refl (tree : ScriptTree) : tree.SharesHeader tree :=
  ⟨rfl, rfl, rfl⟩

theorem trans (first : before.SharesHeader middle) (second : middle.SharesHeader after) :
    before.SharesHeader after :=
  ⟨second.kind.trans first.kind, second.signature.trans first.signature,
    second.indent.trans first.indent⟩

theorem of_rearranges (rearranges : Rearranges extra before after) : before.SharesHeader after :=
  ⟨rearranges.kind, rearranges.signature, rearranges.indent⟩

theorem add (tree : ScriptTree) (node : Node) : tree.SharesHeader (tree.add node).1 := by
  obtain ⟨parents, same⟩ := tree.exists_add_eq node
  rw [same]
  exact ⟨rfl, rfl, rfl⟩

end SharesHeader

section Copies

variable {α β : Type}

/-- A step adds copies only, and its result is good. -/
def Repeats (step : StateM ScriptTree α) (tree : ScriptTree) (Good : α → Prop) : Prop :=
  tree.Echoes (step.run tree).2 ∧ tree.SharesHeader (step.run tree).2 ∧
    (step.run tree).2.vars = tree.vars ∧ Good (step.run tree).1

variable {tree : ScriptTree} {Mid : α → Prop} {Good : β → Prop}

theorem Repeats.bind {step : StateM ScriptTree α} {next : α → StateM ScriptTree β}
    (first : Repeats step tree Mid)
    (second : ∀ {value middle}, Mid value → Repeats (next value) middle Good) :
    Repeats (step >>= next) tree Good := by
  obtain ⟨earlier, top, vars, good⟩ := first
  obtain ⟨later, head, more, better⟩ := @second _ (step.run tree).2 good
  exact ⟨earlier.trans later, top.trans head, more.trans vars, better⟩

theorem Repeats.done {Good : α → Prop} {value : α} (good : Good value) :
    Repeats (pure value) tree Good :=
  ⟨.refl tree, .refl tree, rfl, good⟩

theorem Repeats.mapM {change : NodeId → StateM ScriptTree NodeId}
    (each : ∀ id tree, Repeats (change id) tree fun _ => True) (ids : List NodeId) (tree : ScriptTree) :
    Repeats (ids.mapM change) tree fun copies => copies.length = ids.length := by
  induction ids generalizing tree with
  | nil => exact .done rfl
  | cons id ids induction =>
      rw [List.mapM_cons]
      refine (each id tree).bind fun {copy middle} _ => (induction middle).bind fun {copies _} same => ?_
      exact .done (congrArg (· + 1) same)

/-- A node whose operands are copied keeps its label. -/
theorem Repeats.mapOperandsM {change : NodeId → StateM ScriptTree NodeId}
    (each : ∀ id tree, Repeats (change id) tree fun _ => True) (node : Node) (tree : ScriptTree) :
    Repeats (node.mapOperandsM change) tree fun copy => copy.label = node.label := by
  cases plain : node.isPlainExpression with
  | true =>
      rw [Node.mapOperandsM_eq change plain]
      exact (Repeats.mapM each node.operands tree).bind fun many => .done (Node.label_withOperands many)
  | false =>
      rw [Node.mapOperandsM_eq_pure change plain]
      exact .done rfl

theorem repeats_duplicateFrom (depth : Nat) (id : NodeId) (tree : ScriptTree) :
    Repeats (duplicateFrom depth id) tree fun _ => True := by
  induction depth generalizing id tree with
  | zero => exact .done trivial
  | succ depth induction =>
      obtain ⟨echoes, header, vars, same⟩ := Repeats.mapOperandsM induction (tree.node id) tree
      exact ⟨echoes.add (.inr ⟨id, same⟩), header.trans (.add _ _), (vars_add _ _).trans vars, trivial⟩

/-- Copies of expressions are labelled like these. -/
theorem echoes_duplicate (tree : ScriptTree) (id : NodeId) : tree.Echoes (tree.duplicate id).1 :=
  (repeats_duplicateFrom (tree.size + 1) id tree).1

theorem sharesHeader_duplicate (tree : ScriptTree) (id : NodeId) :
    tree.SharesHeader (tree.duplicate id).1 :=
  (repeats_duplicateFrom (tree.size + 1) id tree).2.1

theorem vars_duplicate (tree : ScriptTree) (id : NodeId) : (tree.duplicate id).1.vars = tree.vars :=
  (repeats_duplicateFrom (tree.size + 1) id tree).2.2.1

end Copies

end ScriptTree

/-- A variable may have become another one that stands for a value exactly if it did. -/
structure Variable.Endures (old new : Variable) : Prop where
  /-- It has the same name. -/
  name : new.name = old.name
  /-- It belongs to the same aggregate. -/
  parent : new.parent = old.parent
  /-- It stands for a value exactly if it did. -/
  value : new.value = none ↔ old.value = none
  /-- It may only have become intermediate. -/
  kind : new.kind ≠ .temp → old.kind ≠ .temp

namespace VarTable

/-- A variable that stands for no value. -/
def IsPlain (table : VarTable) (id : VarId) : Prop :=
  ∃ entry, table.get? id = some entry ∧ entry.value = none

/-- A variable that stands for a value. -/
def IsValued (table : VarTable) (id : VarId) : Prop :=
  ∃ entry, table.get? id = some entry ∧ entry.value ≠ none

/-- Variables have no names yet, and only those stand for values that are intermediate and have no
members. -/
structure IsUnnamed (table : VarTable) : Prop where
  /-- Nothing is named. -/
  name : ∀ {id : VarId} {entry : Variable}, table.get? id = some entry → entry.name = none
  /-- Named variables stand for no values. -/
  value : ∀ {id : VarId} {entry : Variable}, table.get? id = some entry → entry.kind ≠ .temp →
    entry.value = none
  /-- Aggregates stand for no values. -/
  parent : ∀ {id parent : VarId} {entry : Variable}, table.get? id = some entry →
    entry.parent = some parent → table.IsPlain parent

/-- Variables stand for values exactly if they did. -/
def KeepsValues (before after : VarTable) : Prop :=
  ∀ id entry, before.get? id = some entry →
    ∃ later, after.get? id = some later ∧ (later.value = none ↔ entry.value = none)

section Values

variable {table before middle after : VarTable} {id : VarId} {entry : Variable}

theorem KeepsValues.refl (table : VarTable) : table.KeepsValues table :=
  fun _ entry found => ⟨entry, found, .rfl⟩

theorem KeepsValues.trans (first : before.KeepsValues middle) (second : middle.KeepsValues after) :
    before.KeepsValues after := by
  intro id entry found
  obtain ⟨between, there, earlier⟩ := first id entry found
  obtain ⟨later, here, same⟩ := second id between there
  exact ⟨later, here, same.trans earlier⟩

theorem KeepsValues.isPlain (keeps : before.KeepsValues after) (plain : before.IsPlain id) :
    after.IsPlain id := by
  obtain ⟨entry, found, valueless⟩ := plain
  obtain ⟨later, here, same⟩ := keeps id entry found
  exact ⟨later, here, same.mpr valueless⟩

theorem KeepsValues.isValued (keeps : before.KeepsValues after) (valued : before.IsValued id) :
    after.IsValued id := by
  obtain ⟨entry, found, some_value⟩ := valued
  obtain ⟨later, here, same⟩ := keeps id entry found
  exact ⟨later, here, fun valueless => some_value (same.mp valueless)⟩

theorem KeepsValues.modify {change : Variable → Variable}
    (kept : ∀ entry, table.get? id = some entry → ((change entry).value = none ↔ entry.value = none)) :
    table.KeepsValues (table.modify id change) := by
  intro other entry found
  rw [get?_modify]
  split
  · rename_i here
    subst here
    exact ⟨change entry, by rw [found, Option.map_some], kept entry found⟩
  · exact ⟨entry, found, .rfl⟩

theorem KeepsValues.add (table : VarTable) (entry : Variable) :
    table.KeepsValues (table.add entry).1 := by
  intro id old found
  exact ⟨old, by rw [get?_add_of_lt entry (lt_of_get? found), found], .rfl⟩

/-- Changes of one kind one after another. -/
theorem KeepsValues.foldl {change : Variable → Variable}
    (kept : ∀ entry, (change entry).value = none ↔ entry.value = none) (ids : List VarId)
    (table : VarTable) :
    table.KeepsValues (ids.foldl (fun table id => table.modify id change) table) := by
  induction ids generalizing table with
  | nil => exact .refl table
  | cons id ids induction => exact (modify fun entry _ => kept entry).trans (induction _)

end Values

/-- A table may follow another one in the course of a recovery. -/
structure Persists (before after : VarTable) : Prop where
  /-- Variables stand for values exactly if they did. -/
  values : before.KeepsValues after
  /-- No variable gets a name. -/
  unnamed : before.IsUnnamed → after.IsUnnamed

namespace Persists

variable {table before middle after : VarTable} {id : VarId} {entry : Variable} {members : List VarId}

theorem refl (table : VarTable) : table.Persists table :=
  ⟨.refl table, fun unnamed => unnamed⟩

theorem trans (first : before.Persists middle) (second : middle.Persists after) :
    before.Persists after :=
  ⟨first.values.trans second.values, fun unnamed => second.unnamed (first.unnamed unnamed)⟩

/-- The entries of a table come from enduring ones of another table. -/
theorem of_entries (values : before.KeepsValues after) (entries : ∀ {id : VarId} {entry : Variable},
    after.get? id = some entry → ∃ old, before.get? id = some old ∧ old.Endures entry) :
    before.Persists after := by
  refine ⟨values, fun unnamed => ⟨fun found => ?_, fun found named => ?_, fun found held => ?_⟩⟩
  · obtain ⟨old, known, endures⟩ := entries found
    exact endures.name.trans (unnamed.name known)
  · obtain ⟨old, known, endures⟩ := entries found
    exact endures.value.mpr (unnamed.value known (endures.kind named))
  · obtain ⟨old, known, endures⟩ := entries found
    exact values.isPlain (unnamed.parent known (endures.parent.symm.trans held))

theorem modify {change : Variable → Variable}
    (kept : ∀ entry, table.get? id = some entry → entry.Endures (change entry)) :
    table.Persists (table.modify id change) := by
  refine of_entries (.modify fun entry found => (kept entry found).value) fun {other entry} found => ?_
  rw [get?_modify] at found
  split at found
  · rename_i here
    subst here
    obtain ⟨old, known, rfl⟩ := Option.map_eq_some_iff.mp found
    exact ⟨old, known, kept old known⟩
  · exact ⟨entry, found, rfl, rfl, .rfl, fun named => named⟩

/-- Changes of one kind one after another. -/
theorem foldl {change : Variable → Variable} (kept : ∀ entry : Variable, entry.Endures (change entry))
    (ids : List VarId) (table : VarTable) :
    table.Persists (ids.foldl (fun table id => table.modify id change) table) := by
  induction ids generalizing table with
  | nil => exact .refl table
  | cons id ids induction => exact (modify fun entry _ => kept entry).trans (induction _)

/-- A variable of its own is added; it stands for a value only if it is intermediate. -/
theorem add (name : entry.name = none) (value : entry.kind ≠ .temp → entry.value = none)
    (parent : entry.parent = none) : table.Persists (table.add entry).1 := by
  have keeps := KeepsValues.add table entry
  refine ⟨keeps, fun unnamed => ⟨fun found => ?_, fun found named => ?_, fun found held => ?_⟩⟩
  all_goals
    rw [get?_add] at found
    split at found
  · cases found
    exact name
  · exact unnamed.name found
  · cases found
    exact value named
  · exact unnamed.value found named
  · cases found
    cases parent.symm.trans held
  · exact keeps.isPlain (unnamed.parent found held)

/-- Variables are linked to an aggregate that stands for no value. -/
theorem link {owner : VarId} (plain : table.IsPlain owner) (members : List VarId) :
    table.Persists (members.foldl (fun table member => table.modify member
      fun entry => { entry with parent := some owner }) table) := by
  have keeps := @KeepsValues.foldl (fun entry => { entry with parent := some owner }) (fun _ => .rfl)
    members table
  have entries : ∀ {id : VarId} {entry : Variable}, (members.foldl (fun table member =>
      table.modify member fun entry => { entry with parent := some owner }) table).get? id = some entry →
        ∃ old, table.get? id = some old ∧ ∃ parent, entry = { old with parent } ∧
          (parent = old.parent ∨ parent = some owner) := by
    refine VarTable.exists_of_foldl_modify
      (fun old entry => ∃ parent, entry = { old with parent } ∧ (parent = old.parent ∨ parent = some owner))
      (fun entry => ⟨entry.parent, rfl, .inl rfl⟩) ?_ members
    rintro first second ⟨parent, rfl, -⟩
    exact ⟨some owner, rfl, .inr rfl⟩
  refine ⟨keeps, fun unnamed => ⟨fun found => ?_, fun found named => ?_, fun found held => ?_⟩⟩
  · obtain ⟨old, known, parent, rfl, -⟩ := entries found
    exact (unnamed.name known : old.name = none)
  · obtain ⟨old, known, parent, rfl, -⟩ := entries found
    exact (unnamed.value known named : old.value = none)
  · obtain ⟨old, known, parent, rfl, former | new⟩ := entries found
    · exact keeps.isPlain (unnamed.parent known (former.symm.trans held))
    · cases new.symm.trans held
      exact keeps.isPlain plain

/-- Variables become members of an aggregate. -/
theorem aggregate (table : VarTable) (members : List VarId) :
    table.Persists (table.aggregate members).1 := by
  unfold VarTable.aggregate
  refine Persists.trans ?_ (link ?_ members)
  · exact add rfl (fun _ => rfl) rfl
  · exact ⟨_, get?_add_self _ _, rfl⟩

/-- An aggregate stands for no value. -/
theorem isPlain_aggregate (table : VarTable) (members : List VarId) :
    (table.aggregate members).1.IsPlain table.size := by
  unfold VarTable.aggregate
  refine KeepsValues.isPlain (link ?_ members).values ?_
  all_goals exact ⟨_, get?_add_self _ _, rfl⟩

theorem isPlain_group {aggregate : VarId} (grouped : (table.group members).2 = some aggregate) :
    (table.group members).1.IsPlain aggregate := by
  unfold VarTable.group at grouped ⊢
  split at grouped
  · rename_i free
    rw [if_pos free]
    cases grouped
    exact isPlain_aggregate table members
  · cases grouped

theorem group (table : VarTable) (members : List VarId) : table.Persists (table.group members).1 := by
  unfold VarTable.group
  split
  · exact aggregate table members
  · exact .refl table

end Persists

/-- Variables differ at most in their declarations. -/
def Redeclares (before after : VarTable) : Prop :=
  ∀ id, ∃ declaration, after.get? id = (before.get? id).map fun entry => { entry with declaration }

namespace Redeclares

variable {before middle after : VarTable}

theorem refl (table : VarTable) : table.Redeclares table := by
  intro id
  cases found : table.get? id with
  | none => exact ⟨none, rfl⟩
  | some entry => exact ⟨entry.declaration, rfl⟩

theorem trans (first : before.Redeclares middle) (second : middle.Redeclares after) :
    before.Redeclares after := by
  intro id
  obtain ⟨earlier, there⟩ := first id
  obtain ⟨later, here⟩ := second id
  refine ⟨later, ?_⟩
  rw [here, there, Option.map_map]
  rfl

theorem modify (table : VarTable) (id : VarId) (declaration : Option NodeId) :
    table.Redeclares (table.modify id fun entry => { entry with declaration }) := by
  intro other
  rw [get?_modify]
  split
  · rename_i here
    subst here
    exact ⟨declaration, rfl⟩
  · exact refl table other

theorem persists (redeclares : before.Redeclares after) : before.Persists after := by
  refine .of_entries (fun id entry found => ?_) fun {id entry} found => ?_
  · obtain ⟨declaration, same⟩ := redeclares id
    exact ⟨{ entry with declaration }, by rw [same, found, Option.map_some], .rfl⟩
  · obtain ⟨declaration, same⟩ := redeclares id
    rw [same] at found
    obtain ⟨old, known, rfl⟩ := Option.map_eq_some_iff.mp found
    exact ⟨old, known, rfl, rfl, .rfl, fun named => named⟩

end Redeclares

end VarTable

/-- One tree has become another one by edits that relabel no node, and variables at most changed their
declarations. -/
structure ScriptTree.Reshapes (before after : ScriptTree) : Prop where
  /-- Nodes show nothing new. -/
  echoes : before.Echoes after
  /-- The header is the same. -/
  header : before.SharesHeader after
  /-- Variables differ at most in their declarations. -/
  vars : before.vars.Redeclares after.vars

namespace ScriptTree.Reshapes

variable {before middle after tree : ScriptTree}

theorem refl (tree : ScriptTree) : tree.Reshapes tree :=
  ⟨.refl tree, .refl tree, .refl tree.vars⟩

theorem trans (first : before.Reshapes middle) (second : middle.Reshapes after) :
    before.Reshapes after :=
  ⟨first.echoes.trans second.echoes, first.header.trans second.header, first.vars.trans second.vars⟩

theorem of_echoes (echoes : before.Echoes after) (header : before.SharesHeader after)
    (same : after.vars = before.vars) : before.Reshapes after :=
  ⟨echoes, header, same ▸ .refl _⟩

theorem of_rearranges {extra : List NodeId} (rearranges : Rearranges extra before after) :
    before.Reshapes after :=
  of_echoes (.of_rearranges rearranges) (.of_rearranges rearranges) rearranges.vars

/-- A node is added that shows nothing. -/
theorem add (tree : ScriptTree) {node : Node} (plain : node.label = .leave) :
    tree.Reshapes (tree.add node).1 :=
  of_echoes (.add (.refl tree) (.inl plain)) (.add tree node) (vars_add tree node)

theorem modify {id : NodeId} {change : Node → Node}
    (same : (change (tree.node id)).label = (tree.node id).label) :
    tree.Reshapes (tree.modify id change) :=
  of_echoes (.modify same) ⟨rfl, rfl, rfl⟩ rfl

theorem setParent (reshapes : before.Reshapes after) (id : NodeId) (owner : Option NodeId) :
    before.Reshapes (after.setParent id owner) :=
  reshapes.trans (of_echoes (.of_nodes rfl) ⟨rfl, rfl, rfl⟩ rfl)

/-- The declaration of a variable changes. -/
theorem redeclare (tree : ScriptTree) (var : VarId) (declaration : Option NodeId) :
    tree.Reshapes (tree.modifyVar var fun entry => { entry with declaration }) :=
  ⟨.of_nodes rfl, ⟨rfl, rfl, rfl⟩, .modify tree.vars var declaration⟩

/-- Changes of one kind one after another. -/
theorem foldl {α : Type} {change : ScriptTree → α → ScriptTree}
    (each : ∀ (tree : ScriptTree) item, tree.Reshapes (change tree item)) (items : List α)
    (tree : ScriptTree) : tree.Reshapes (items.foldl change tree) := by
  induction items generalizing tree with
  | nil => exact .refl tree
  | cons item items induction => exact (each tree item).trans (induction _)

theorem duplicate (tree : ScriptTree) (id : NodeId) : tree.Reshapes (tree.duplicate id).1 :=
  of_echoes (echoes_duplicate tree id) (sharesHeader_duplicate tree id) (vars_duplicate tree id)

theorem replaceAll (tree : ScriptTree) (statement : NodeId) (others : List NodeId) :
    tree.Reshapes (tree.replaceAll statement others) :=
  of_rearranges (.replaceAll tree statement others)

theorem declareWhole (tree : ScriptTree) (aggregate declaration : NodeId) :
    tree.Reshapes (tree.declareWhole aggregate declaration) :=
  (foldl (fun tree member => redeclare tree member none) _ tree).trans (redeclare _ aggregate _)

end ScriptTree.Reshapes

/-- What the nodes of a recovered tree may say.  References and names of members are not restricted, and
neither are the marks of what was not recovered. -/
structure Vocabulary where
  /-- The labels that are allowed. -/
  allows : Node → Prop
  /-- Most nodes say nothing. -/
  plain : allows .leave
  /-- Every variable may be named. -/
  reference : ∀ var, allows (.reference var)
  /-- Every member may be named. -/
  member : ∀ type index, allows (.member 0 (VarTable.memberName type index))
  /-- Operands may be missing. -/
  unknownOperand : allows (.placeholder Node.unknownOperand)
  /-- Arguments may be missing. -/
  unresolvedParam : ∀ index : Nat, allows (.placeholder ("__unresolved_param" ++ toString index))
  /-- Jumps may be marked. -/
  unresolvedJump : allows (.comment Recover.unresolvedJump)

namespace ScriptTree

/-- Nodes keep to a vocabulary, variables have no names yet, and no reference is to an intermediate
value. -/
structure IsWorded (words : Vocabulary) (tree : ScriptTree) : Prop where
  /-- Labels are allowed. -/
  label : ∀ id, words.allows (tree.node id).label
  /-- References are to variables that stand for no value. -/
  reference : ∀ {id : NodeId} {var : VarId}, tree.node id = .reference var → tree.vars.IsPlain var
  /-- Variables have no names. -/
  vars : tree.vars.IsUnnamed

/-- A tree has the header of another one, and variables stand for values exactly if they did there. -/
structure Continues (before after : ScriptTree) : Prop where
  /-- The header is the same. -/
  header : before.SharesHeader after
  /-- Variables stand for values exactly if they did. -/
  values : before.vars.KeepsValues after.vars

namespace Continues

variable {before middle after : ScriptTree}

theorem refl (tree : ScriptTree) : tree.Continues tree :=
  ⟨.refl tree, .refl tree.vars⟩

theorem trans (first : before.Continues middle) (second : middle.Continues after) :
    before.Continues after :=
  ⟨first.header.trans second.header, first.values.trans second.values⟩

end Continues

/-- A tree may follow another one in the course of a recovery. -/
structure Retells (words : Vocabulary) (before after : ScriptTree) : Prop extends
    before.Continues after where
  /-- It keeps to the vocabulary. -/
  worded : before.IsWorded words → after.IsWorded words

namespace Retells

variable {words : Vocabulary} {before middle after tree : ScriptTree} {node : Node} {vars : VarTable}

theorem refl (tree : ScriptTree) : tree.Retells words tree :=
  ⟨.refl tree, fun worded => worded⟩

theorem trans (first : before.Retells words middle) (second : middle.Retells words after) :
    before.Retells words after :=
  ⟨first.toContinues.trans second.toContinues, fun worded => second.worded (first.worded worded)⟩

theorem of_reshapes (reshapes : before.Reshapes after) : before.Retells words after := by
  have persists := reshapes.vars.persists
  refine ⟨⟨reshapes.header, persists.values⟩,
    fun worded => ⟨fun id => ?_, fun {id var} here => ?_, persists.unnamed worded.vars⟩⟩
  · rcases reshapes.echoes id with silent | ⟨other, echoed⟩
    · exact silent ▸ words.plain
    · exact echoed ▸ worded.label other
  · rcases reshapes.echoes id with silent | ⟨other, echoed⟩
    · rw [here] at silent
      cases silent
    · rw [here] at echoed
      exact persists.values.isPlain (worded.reference (Node.label_eq_reference echoed.symm))

theorem of_rearranges {extra : List NodeId} (rearranges : Rearranges extra before after) :
    before.Retells words after :=
  of_reshapes (.of_rearranges rearranges)

/-- A node is added; if it is a reference, to a variable that stands for no value. -/
theorem add (allowed : words.allows node.label)
    (plain : ∀ var, node = .reference var → tree.vars.IsPlain var) :
    tree.Retells words (tree.add node).1 := by
  have vars := vars_add tree node
  refine ⟨⟨.add tree node, vars ▸ .refl _⟩,
    fun worded => ⟨fun id => ?_, fun {id var} here => ?_, vars ▸ worded.vars⟩⟩
  · rw [node_add, Function.update_apply]
    split
    · exact allowed
    · exact worded.label id
  · rw [vars]
    rw [node_add, Function.update_apply] at here
    split at here
    · exact plain var here
    · exact worded.reference here

/-- The variables change. -/
theorem persists (persists : tree.vars.Persists vars) : tree.Retells words { tree with vars } :=
  ⟨⟨⟨rfl, rfl, rfl⟩, persists.values⟩, fun worded => ⟨worded.label,
    fun here => persists.values.isPlain (worded.reference here), persists.unnamed worded.vars⟩⟩

theorem modifyVar {id : VarId} {change : Variable → Variable}
    (kept : ∀ entry, tree.vars.get? id = some entry → entry.Endures (change entry)) :
    tree.Retells words (tree.modifyVar id change) :=
  persists (.modify kept)

/-- Changes of one kind one after another. -/
theorem foldl {α : Type} {change : ScriptTree → α → ScriptTree}
    (each : ∀ (tree : ScriptTree) item, tree.Retells words (change tree item)) (items : List α)
    (tree : ScriptTree) : tree.Retells words (items.foldl change tree) := by
  induction items generalizing tree with
  | nil => exact .refl tree
  | cons item items induction => exact (each tree item).trans (induction _)

theorem keepCall (tree : ScriptTree) (var : VarId) : tree.Retells words (Recover.keepCall tree var) := by
  unfold Recover.keepCall
  split
  · exact of_reshapes (.modify (Node.label_settled _))
  · exact .refl tree

end Retells

end ScriptTree

namespace Recovery

/-- Everything that a state of a recovery says keeps to a vocabulary. -/
structure IsWorded (words : Vocabulary) (recovery : Recovery) : Prop where
  /-- The tree does. -/
  tree : recovery.tree.IsWorded words
  /-- Literals of comparisons are allowed. -/
  comparison : ∀ comparison, recovery.comparison = some comparison →
    words.allows (.literal comparison.label)
  /-- Literals of dispatches are allowed. -/
  dispatch : ∀ dispatch, recovery.dispatch = some dispatch → ∀ entry ∈ dispatch.cases,
    words.allows (.literal entry.1)
  /-- What a variable was copied into stands for a value. -/
  track : ∀ temporary source, recovery.track = some (.copied temporary source) →
    recovery.tree.vars.IsValued temporary

variable {words : Vocabulary} {recovery : Recovery}

/-- A tree that follows another one serves as well. -/
theorem IsWorded.retell (worded : recovery.IsWorded words) {tree : ScriptTree}
    (retells : recovery.tree.Retells words tree) : { recovery with tree }.IsWorded words where
  tree := retells.worded worded.tree
  comparison := worded.comparison
  dispatch := worded.dispatch
  track := fun temporary source tracked => retells.values.isValued (worded.track temporary source tracked)

end Recovery

namespace Recover

open ScriptTree

variable {α β : Type}

/-- From a state that keeps to a vocabulary a step leads to one that does, whose tree continues the former
one, and the result is good. -/
def Tells (words : Vocabulary) (step : Recover α) (before : Recovery) (Good : α → Recovery → Prop) :
    Prop :=
  before.IsWorded words → ∀ {value after}, Runs step before value after →
    after.IsWorded words ∧ before.tree.Continues after.tree ∧ Good value after

/-- From a state that keeps to a vocabulary a step leads to one that does. -/
abbrev Abides (words : Vocabulary) (step : Recover α) (before : Recovery) : Prop :=
  Tells words step before fun _ _ => True

section Telling

variable {words : Vocabulary} {before middle : Recovery} {step : Recover α} {next : α → Recover β}
  {Good : β → Recovery → Prop}

theorem Tells.worded {Good : α → Recovery → Prop}
    (tells : before.IsWorded words → Tells words step before Good) : Tells words step before Good :=
  fun worded => tells worded worded

theorem Tells.abides {Good : α → Recovery → Prop} (tells : Tells words step before Good) :
    Abides words step before := by
  intro worded value after runs
  obtain ⟨later, continues, -⟩ := tells worded runs
  exact ⟨later, continues, trivial⟩

theorem Tells.done {Good : α → Recovery → Prop} {value : α} (good : Good value before) :
    Tells words (pure value) before Good := by
  rintro worded _ _ ⟨⟩
  exact ⟨worded, .refl _, good⟩

/-- A step that fails says nothing. -/
theorem Tells.fail {Good : α → Recovery → Prop} (fault : Fault) :
    Tells words (throw fault : Recover α) before Good := by
  rintro _ _ _ ⟨⟩

theorem Tells.ite {Good : α → Recovery → Prop} {condition : Prop} [Decidable condition]
    {left right : Recover α} (holds : condition → Tells words left before Good)
    (fails : ¬condition → Tells words right before Good) :
    Tells words (if condition then left else right) before Good := by
  split
  · exact holds ‹_›
  · exact fails ‹_›

theorem Tells.bind {Mid : α → Recovery → Prop} (first : Tells words step before Mid)
    (second : ∀ {value middle}, before.tree.Continues middle.tree → Mid value middle →
      Tells words (next value) middle Good) : Tells words (step >>= next) before Good := by
  intro worded result after runs
  obtain ⟨value, middle, begun, ended⟩ := runs.split
  obtain ⟨between, earlier, good⟩ := first worded begun
  obtain ⟨later, continues, better⟩ := second earlier good between ended
  exact ⟨later, earlier.trans continues, better⟩

theorem Abides.bind (first : Abides words step before)
    (second : ∀ value middle, Tells words (next value) middle Good) :
    Tells words (step >>= next) before Good :=
  Tells.bind first fun _ _ => second _ _

theorem Tells.reads {next : Recovery → Recover β} (rest : Tells words (next before) before Good) :
    Tells words (get >>= next) before Good :=
  fun worded _ _ runs => rest worded (runs.rest (.reads before))

theorem Tells.lift {outcome : Except Fault α}
    (rest : ∀ value, outcome = .ok value → Tells words (next value) before Good) :
    Tells words ((liftM outcome : Recover α) >>= next) before Good := by
  intro worded result after runs
  cases done : outcome with
  | ok value => exact rest value done worded (runs.rest (.lift done before))
  | error fault =>
      rw [done] at runs
      cases runs

/-- The state changes without running further steps. -/
theorem Tells.changes {Good : Unit → Recovery → Prop} {change : Recovery → Recovery}
    (worded : before.IsWorded words → (change before).IsWorded words)
    (continues : before.tree.Continues (change before).tree) (good : Good () (change before)) :
    Tells words (modify change) before Good := by
  rintro sound _ _ ⟨⟩
  exact ⟨worded sound, continues, good⟩

/-- Something is recorded that says nothing. -/
theorem Tells.notes {change : Recovery → Recovery} (tree : (change before).tree = before.tree)
    (comparison : (change before).comparison = before.comparison)
    (dispatch : (change before).dispatch = before.dispatch)
    (track : ∀ temporary source, (change before).track = some (.copied temporary source) →
      before.track = some (.copied temporary source)) : Abides words (modify change) before := by
  refine Tells.changes (fun worded => ?_) (tree ▸ .refl _) trivial
  refine ⟨tree ▸ worded.tree, comparison ▸ worded.comparison, dispatch ▸ worded.dispatch, ?_⟩
  exact fun temporary source tracked =>
    tree ▸ worded.track temporary source (track temporary source tracked)

theorem Abides.mapM {step : β → Recover α} (each : ∀ item before, Abides words (step item) before)
    (items : List β) (before : Recovery) :
    Tells words (items.mapM step) before fun results _ => results.length = items.length := by
  induction items generalizing before with
  | nil => exact .done rfl
  | cons item items induction =>
      rw [List.mapM_cons]
      refine (each item before).bind fun result middle => (induction middle).bind fun _ same => .done ?_
      exact congrArg (· + 1) same

end Telling

section Steps

variable {words : Vocabulary} {before : Recovery}

theorem unclassified_tells {Good : α → Recovery → Prop} (obstacle : Obstacle) :
    Tells words (unclassified obstacle : Recover α) before Good :=
  .reads (.fail _)

theorem onTree_abides {change : ScriptTree → ScriptTree}
    (retells : before.tree.Retells words (change before.tree)) : Abides words (onTree change) before :=
  .changes (fun worded => worded.retell retells) retells.toContinues trivial

theorem onStack_tells (change : SlotStack StackEntry → SlotStack StackEntry) :
    Tells words (onStack change) before fun _ after => after.tree = before.tree :=
  .changes (fun worded => ⟨worded.tree, worded.comparison, worded.dispatch, worded.track⟩) (.refl _) rfl

theorem onStack_abides (change : SlotStack StackEntry → SlotStack StackEntry) :
    Abides words (onStack change) before :=
  (onStack_tells change).abides

theorem push_abides (entry : StackEntry) : Abides words (push entry) before :=
  onStack_abides _

theorem enter_abides (node : NodeId) : Abides words (enter node) before :=
  .notes rfl rfl rfl fun _ _ tracked => tracked

theorem emit_abides (statement : NodeId) : Abides words (emit statement) before :=
  have retells : before.tree.Retells words (before.tree.append before.current statement) :=
    .of_rearranges (.append _ _ _)
  .changes (fun worded => worded.retell retells) retells.toContinues trivial

/-- A node is added; if it is a reference, to a variable that stands for no value. -/
theorem addLabel_abides {node : Node} (allowed : words.allows node.label)
    (plain : ∀ var, node = .reference var → before.tree.vars.IsPlain var) :
    Abides words (addNode node) before := by
  rintro worded _ _ ⟨⟩
  have retells := Retells.add allowed plain
  exact ⟨worded.retell retells, retells.toContinues, trivial⟩

/-- A node is added that is no reference. -/
theorem addNode_abides {node : Node} (allowed : words.allows node.label)
    (other : ∀ var, node ≠ .reference var) : Abides words (addNode node) before :=
  addLabel_abides allowed fun var same => absurd same (other var)

/-- A node is added that says nothing. -/
theorem addPlain_abides {node : Node} (plain : node.label = .leave) : Abides words (addNode node) before :=
  addNode_abides (plain ▸ words.plain) fun var same => by cases same.symm ▸ plain

theorem reference_abides {var : VarId} (plain : before.tree.vars.IsPlain var) :
    Abides words (addNode (.reference var)) before :=
  addLabel_abides (words.reference var) fun _ same => by cases same; exact plain

theorem unknownOperand_abides : Abides words unknownOperand before :=
  addNode_abides words.unknownOperand fun _ same => by cases same

theorem emitNode_abides {node : Node} (plain : node.label = .leave) : Abides words (emitNode node) before :=
  (addPlain_abides plain).bind fun _ _ => emit_abides _

theorem openNode_abides {node : Node} (plain : node.label = .leave) : Abides words (openNode node) before :=
  (addPlain_abides plain).bind fun _ _ => (emit_abides _).bind fun _ _ => (enter_abides _).bind fun _ _ =>
    .done trivial

theorem duplicate_abides (id : NodeId) : Abides words (duplicate id) before := by
  rintro worded _ _ ⟨⟩
  have retells : before.tree.Retells words (before.tree.duplicate id).1 := .of_reshapes (.duplicate _ id)
  exact ⟨worded.retell retells, retells.toContinues, trivial⟩

/-- A variable of its own is added. -/
theorem addVar_abides {entry : Variable} (name : entry.name = none)
    (value : entry.kind ≠ .temp → entry.value = none) (parent : entry.parent = none) :
    Tells words (addVar entry) before fun id after => after.tree.vars.get? id = some entry := by
  rintro worded _ _ ⟨⟩
  have persists : before.tree.vars.Persists (before.tree.vars.add entry).1 := .add name value parent
  exact ⟨worded.retell (.persists persists), ⟨⟨rfl, rfl, rfl⟩, persists.values⟩, VarTable.get?_add_self _ _⟩

theorem onVar_abides {id : VarId} {change : Variable → Variable}
    (kept : ∀ entry, before.tree.vars.get? id = some entry → entry.Endures (change entry)) :
    Abides words (onVar id change) before :=
  onTree_abides (.modifyVar kept)

/-- An aggregate stands for no value. -/
theorem group_tells (members : List VarId) : Tells words (group members) before
    fun found after => ∀ aggregate, found = some aggregate → after.tree.vars.IsPlain aggregate := by
  rintro worded _ _ ⟨⟩
  have persists := VarTable.Persists.group before.tree.vars members
  exact ⟨worded.retell (.persists persists), ⟨⟨rfl, rfl, rfl⟩, persists.values⟩,
    fun _ grouped => VarTable.Persists.isPlain_group grouped⟩

/-- A new intermediate variable stands for its value. -/
theorem pushValue_tells (type : Ty) (value : NodeId) (width : Nat) :
    Tells words (pushValue type value width) before
      fun id after => after.tree.vars.IsValued id := by
  refine (addVar_abides rfl (fun named => absurd rfl named) rfl).bind fun {id middle} _ found => ?_
  refine (onStack_tells _).bind fun {_ after} _ same => .done ?_
  exact ⟨_, same ▸ found, Option.some_ne_none value⟩

end Steps

end Recover
end NwScript
