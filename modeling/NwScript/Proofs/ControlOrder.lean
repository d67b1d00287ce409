import NwScript.Proofs.QuietSteps
import NwScript.Proofs.ScopeOrder
import NwScript.Proofs.StatementForest

/-!
# Order of control flow

An else branch stands directly behind a branch, and the cases of a switch stand before everything else
in it.  A jump out of a loop or switch stands within one, and so does a jump to the next turn of a loop.
Changes that exchange plain statements of a body, or move some of its last ones, keep this.
-/

namespace NwScript

namespace Node

/-- A guarded body. -/
def isBranch : Node → Bool
  | branch _ _ _ => true
  | _ => false

/-- An else branch. -/
def isOtherwise : Node → Bool
  | otherwise _ => true
  | _ => false

/-- A case of a switch. -/
def isCase : Node → Bool
  | case _ _ => true
  | _ => false

/-- A statement that may stand behind any other one. -/
def isFree (node : Node) : Bool :=
  !node.isOtherwise && !node.isCase

/-- A statement that may stand anywhere and has only free ones behind it. -/
def isPlain (node : Node) : Bool :=
  node.isFree && !node.isBranch

/-- A statement may stand directly behind another one: an else branch behind a branch, a case behind a
case. -/
structure Precedes (former latter : Node) : Prop where
  /-- Else branches belong to branches. -/
  branch : latter.isOtherwise → former.isBranch
  /-- No case stands behind another kind of statement. -/
  case : latter.isCase → former.isCase

section Kinds

variable {node former latter : Node}

theorem isBranch_outline (node : Node) : node.outline.isBranch = node.isBranch := by
  cases node <;> rfl

theorem isOtherwise_outline (node : Node) : node.outline.isOtherwise = node.isOtherwise := by
  cases node <;> rfl

theorem isCase_outline (node : Node) : node.outline.isCase = node.isCase := by
  cases node <;> rfl

theorem isLoop_outline (node : Node) : node.outline.isLoop = node.isLoop := by
  cases node <;> rfl

theorem isBlock_outline (node : Node) : node.outline.isBlock = node.isBlock := by
  cases node <;> rfl

theorem enclosure?_outline (node : Node) : node.outline.enclosure? = node.enclosure? := by
  cases node <;> rfl

/-- Where one node stands in order, so does the other. -/
structure SameKind (former latter : Node) : Prop where
  /-- Both are bodies, or none. -/
  isBlock : latter.isBlock = former.isBlock
  /-- Both are branches, or none. -/
  isBranch : latter.isBranch = former.isBranch
  /-- Both are else branches, or none. -/
  isOtherwise : latter.isOtherwise = former.isOtherwise
  /-- Both are switches, or none. -/
  isSwitch : latter.isSwitch = former.isSwitch
  /-- Both are cases, or none. -/
  isCase : latter.isCase = former.isCase
  /-- Both are loops, or none. -/
  isLoop : latter.isLoop = former.isLoop
  /-- Both have to stand within the same. -/
  enclosure? : latter.enclosure? = former.enclosure?

theorem SameKind.of_outline (same : latter.outline = former.outline) : former.SameKind latter where
  isBlock := congr_outline isBlock_outline same
  isBranch := congr_outline isBranch_outline same
  isOtherwise := congr_outline isOtherwise_outline same
  isSwitch := congr_outline isSwitch_outline same
  isCase := congr_outline isCase_outline same
  isLoop := congr_outline isLoop_outline same
  enclosure? := congr_outline enclosure?_outline same

/-- A jump may stand within both, or in none. -/
theorem SameKind.encloses (same : former.SameKind latter) {test : Node → Bool}
    (needs : node.enclosure? = some test) : test latter = test former := by
  cases node with
  | leave =>
      cases needs
      exact congrArg₂ (· || ·) same.isLoop same.isSwitch
  | next =>
      cases needs
      exact same.isLoop
  | _ => cases needs

theorem Precedes.congr {front behind : Node} (precedes : former.Precedes latter)
    (first : former.SameKind front) (second : latter.SameKind behind) : front.Precedes behind where
  branch := fun follows => first.isBranch.trans (precedes.branch (second.isOtherwise.symm.trans follows))
  case := fun follows => first.isCase.trans (precedes.case (second.isCase.symm.trans follows))

/-- Anything may stand before a free statement. -/
theorem precedes_of_isFree (former : Node) (free : latter.isFree) : former.Precedes latter := by
  cases latter with
  | otherwise | case => cases free
  | _ => exact ⟨nofun, nofun⟩

/-- Only free statements stand behind a plain one. -/
theorem Precedes.isFree (precedes : former.Precedes latter) (plain : former.isPlain) :
    latter.isFree := by
  have not_branch : former.isBranch = false := by cases former <;> first | rfl | cases plain
  have not_case : former.isCase = false := by cases former <;> first | rfl | cases plain
  cases latter with
  | otherwise => exact absurd (not_branch.symm.trans (precedes.branch rfl)) Bool.false_ne_true
  | case => exact absurd (not_case.symm.trans (precedes.case rfl)) Bool.false_ne_true
  | _ => rfl

theorem isFree_of_isPlain (plain : node.isPlain) : node.isFree := by
  cases node <;> first | rfl | cases plain

theorem isOtherwise_of_isFree (free : node.isFree) : node.isOtherwise = false := by
  cases node <;> first | rfl | cases free

theorem isCase_of_isFree (free : node.isFree) : node.isCase = false := by
  cases node <;> first | rfl | cases free

/-- What owns no statements is plain. -/
theorem isPlain_of_bare (bare : node.body? = none) : node.isPlain := by
  cases node <;> first | rfl | cases bare

theorem isPlain_of_isBlock (block : node.isBlock) : node.isPlain := by
  cases node <;> first | rfl | cases block

theorem isPlain_of_isLoose (loose : node.isLoose) : node.isPlain :=
  isPlain_of_bare (body?_of_isLoose loose)

/-- Only jumps have to stand within something. -/
theorem enclosure?_eq_none_of_owns (owns : node.body?.isSome) : node.enclosure? = none := by
  cases node <;> first | rfl | cases owns

theorem enclosure?_eq_none_of_isLoose (loose : node.isLoose) : node.enclosure? = none := by
  cases node <;> first | rfl | cases loose

/-- Jumps stand within loops and switches. -/
theorem isLoop_or_isSwitch {around : Node} {test : Node → Bool} (needs : node.enclosure? = some test)
    (passes : test around) : around.isLoop || around.isSwitch := by
  cases node with
  | leave =>
      cases needs
      exact passes
  | next =>
      cases needs
      rw [passes]
      rfl
  | _ => cases needs

end Kinds

end Node

namespace ScriptTree

/-- Statements may stand one behind the other, and no else branch is the first one. -/
structure InOrder (tree : ScriptTree) (statements : List NodeId) : Prop where
  /-- The first one is no else branch. -/
  first : ∀ id ∈ statements.head?, (tree.node id).isOtherwise = false
  /-- Each may stand behind the one before it. -/
  chain : statements.IsChain fun former latter => (tree.node former).Precedes (tree.node latter)

namespace InOrder

variable {tree before after : ScriptTree} {left old new right statements : List NodeId}

theorem nil (tree : ScriptTree) : tree.InOrder [] :=
  ⟨nofun, .nil⟩

theorem congr (ordered : before.InOrder statements)
    (same : ∀ id ∈ statements, (before.node id).SameKind (after.node id)) :
    after.InOrder statements where
  first := fun id listed => by
    rw [(same id (List.mem_of_mem_head? listed)).isOtherwise]
    exact ordered.first id listed
  chain := ordered.chain.imp_of_mem_imp fun former latter one other precedes =>
    precedes.congr (same former one) (same latter other)

theorem take (ordered : tree.InOrder statements) (count : Nat) :
    tree.InOrder (statements.take count) where
  first := fun id listed => by
    cases statements with
    | nil => cases (List.take_nil ▸ listed : id ∈ ([] : List NodeId).head?)
    | cons first rest =>
        cases count with
        | zero => cases listed
        | succ count => exact ordered.first id listed
  chain := ordered.chain.take count

/-- From a free statement on statements are in order. -/
theorem drop (ordered : tree.InOrder statements) {count : Nat}
    (free : ∀ id ∈ (statements.drop count).head?, (tree.node id).isFree) :
    tree.InOrder (statements.drop count) where
  first := fun id listed => Node.isOtherwise_of_isFree (free id listed)
  chain := ordered.chain.drop count

/-- Behind what is no case there are no cases. -/
theorem isCase_eq_false
    (chain : statements.IsChain fun former latter => (tree.node former).Precedes (tree.node latter))
    (first : ∀ id ∈ statements.head?, (tree.node id).isCase = false) {id : NodeId}
    (listed : id ∈ statements) : (tree.node id).isCase = false := by
  induction statements with
  | nil => cases listed
  | cons head rest induction =>
      obtain ⟨seam, chain⟩ := List.isChain_cons.mp chain
      have not_case := first head rfl
      rcases List.mem_cons.mp listed with rfl | behind
      · exact not_case
      · refine induction chain (fun next heading => ?_) behind
        rw [Bool.eq_false_iff]
        intro isCase
        cases not_case.symm.trans ((seam next heading).case isCase)

/-- A statement may be put at the end. -/
theorem concat (ordered : tree.InOrder statements) {id : NodeId}
    (branch : (tree.node id).isOtherwise → ∃ last ∈ statements.getLast?, (tree.node last).isBranch)
    (cases : (tree.node id).isCase → ∀ last ∈ statements.getLast?, (tree.node last).isCase) :
    tree.InOrder (statements ++ [id]) where
  first := fun head listed => by
    cases statements with
    | nil =>
        obtain rfl := Option.some.inj listed
        rw [Bool.eq_false_iff]
        intro follows
        obtain ⟨last, there, -⟩ := branch follows
        cases there
    | cons first rest => exact ordered.first head listed
  chain := by
    refine List.isChain_append.mpr ⟨ordered.chain, .singleton _, ?_⟩
    rintro last ending _ ⟨⟩
    refine ⟨fun follows => ?_, fun follows => cases follows last ending⟩
    obtain ⟨other, there, guards⟩ := branch follows
    exact Option.some.inj (ending.symm.trans there) ▸ guards

/-- Plain statements may give way to others that are in order and begin with a free one. -/
theorem exchange (ordered : tree.InOrder (left ++ old ++ right)) (taken : old ≠ [])
    (plain : ∀ id ∈ old, (tree.node id).isPlain) (fits : tree.InOrder new)
    (free : ∀ id ∈ new.head?, (tree.node id).isFree) : tree.InOrder (left ++ new ++ right) := by
  obtain ⟨front, behind, seam⟩ := List.isChain_append.mp ordered.chain
  have ahead := (List.isChain_append.mp front).1
  -- What follows a plain statement is free, so it may stand behind anything.
  have open_end : ∀ id ∈ right.head?, (tree.node id).isFree := by
    intro id listed
    have ending := List.getLast?_eq_some_getLast taken
    refine (seam _ ?_ id listed).isFree (plain _ (List.getLast_mem taken))
    rw [List.getLast?_append, ending]
    rfl
  have whole : ∀ id ∈ (new ++ right).head?, (tree.node id).isFree := by
    intro id listed
    cases new with
    | nil => exact open_end id listed
    | cons first rest => exact free id listed
  refine ⟨fun id listed => ?_, ?_⟩
  · rw [List.append_assoc] at listed
    cases left with
    | nil => exact Node.isOtherwise_of_isFree (whole id listed)
    | cons first rest => exact ordered.first id listed
  · rw [List.append_assoc]
    refine List.isChain_append.mpr ⟨ahead, ?_, fun _ _ id listed =>
      Node.precedes_of_isFree _ (whole id listed)⟩
    exact List.isChain_append.mpr ⟨fits.chain, behind, fun _ _ id listed =>
      Node.precedes_of_isFree _ (open_end id listed)⟩

end InOrder

/-- A statement stands within a node that passes a test. -/
def StandsWithin (tree : ScriptTree) (test : Node → Bool) (id : NodeId) : Prop :=
  ∃ around, test (tree.node around) ∧ Relation.TransGen tree.Holds around id

/-- The control flow of a tree is in order. -/
structure IsOrdered (tree : ScriptTree) : Prop where
  /-- The body of the subroutine is nothing but a body. -/
  rooted : (tree.node root).isBlock
  /-- The statements of each body are in order. -/
  order : ∀ holder, tree.InOrder (tree.children holder)
  /-- Statements are nodes of the tree. -/
  inside : ∀ {holder child : NodeId}, child ∈ tree.children holder → child < tree.size
  /-- Switches hold the cases. -/
  cases : ∀ {holder child : NodeId}, child ∈ tree.children holder → (tree.node child).isCase →
    (tree.node holder).isSwitch
  /-- Jumps stand within what they leave or continue. -/
  jumps : ∀ {holder child : NodeId}, child ∈ tree.children holder →
    ∀ {test}, (tree.node child).enclosure? = some test → tree.StandsWithin test child

section Enclosing

variable {before after : ScriptTree} {id : NodeId} {node : Node} {test : Node → Bool}

/-- What a jump needs around it stays around it where chains of statements lead to it as before. -/
theorem StandsWithin.keep (within : before.StandsWithin test id) (needs : node.enclosure? = some test)
    (same : ∀ around < before.size, (before.node around).SameKind (after.node around))
    (chains : ∀ {around}, (before.node around).isLoop || (before.node around).isSwitch →
      Relation.TransGen before.Holds around id → Relation.TransGen after.Holds around id) :
    after.StandsWithin test id := by
  obtain ⟨around, passes, chain⟩ := within
  have inside := lt_of_body? (Node.owns_of_encloses needs passes)
  refine ⟨around, ?_, chains (Node.isLoop_or_isSwitch needs passes) chain⟩
  rwa [(same around inside).encloses needs]

/-- Where bodies lose loose statements only, chains lead to everything else as before. -/
theorem transGen_of_loose (kept : ∀ {upper lower}, before.Holds upper lower →
      (before.node lower).isLoose = false → after.Holds upper lower)
    (stays : (before.node id).isLoose = false) {around : NodeId}
    (chain : Relation.TransGen before.Holds around id) : Relation.TransGen after.Holds around id := by
  obtain ⟨holder, above, held⟩ := Relation.TransGen.tail'_iff.mp chain
  have bare : ∀ {place next}, (before.node place).isLoose → ¬before.Holds place next := by
    intro place next loose there
    rw [Holds, children_eq, Node.statements_eq_nil (Node.body?_of_isLoose loose)] at there
    exact absurd there List.not_mem_nil
  rcases chain_of_dropped (fun place => (before.node place).isLoose) bare
    (fun held other => kept held (Bool.eq_false_iff.mpr other)) above with loose | above
  · exact absurd held (bare loose)
  · exact .tail' above (kept held stays)

end Enclosing

/-- Nodes are completed, and nodes are added that hold nothing or hold what another one holds. -/
structure Completes (before after : ScriptTree) : Prop where
  /-- No node is lost. -/
  size : before.size ≤ after.size
  /-- Nodes keep their outlines. -/
  outline : ∀ id < before.size, (after.node id).outline = (before.node id).outline
  /-- Bodies stay. -/
  children : ∀ id < before.size, after.children id = before.children id
  /-- New nodes hold nothing or are like other ones. -/
  added : ∀ id, before.size ≤ id → after.children id = [] ∨ ∃ original < before.size,
    after.children id = before.children original ∧
      (after.node id).outline = (before.node original).outline

namespace Completes

variable {tree before after : ScriptTree}

theorem of_nodes (same : after.nodes = before.nodes) : before.Completes after := by
  have node : ∀ id, after.node id = before.node id := fun id => by
    rw [ScriptTree.node, ScriptTree.node, same]
  refine ⟨Nat.le_of_eq (congrArg Array.size same.symm), fun id _ => by rw [node], fun id _ => ?_,
    fun id outside => .inl ?_⟩
  · rw [children_eq, node, children_eq]
  · rw [children_eq, node, node_of_le outside]
    rfl

theorem add {node : Node} (fits : node.statements = [] ∨ ∃ original, node = tree.node original) :
    tree.Completes (tree.add node).1 := by
  refine ⟨by simp, fun id inside => by rw [node_add_of_lt node inside], fun id inside => ?_,
    fun id outside => ?_⟩
  · rw [children_eq, node_add_of_lt node inside, children_eq]
  · rw [children_eq, node_add, Function.update_apply]
    split
    · rename_i here
      rcases fits with empty | ⟨original, rfl⟩
      · exact .inl empty
      · by_cases inside : original < tree.size
        · exact .inr ⟨original, inside, rfl, rfl⟩
        · rw [node_of_le (Nat.not_lt.mp inside)]
          exact .inl rfl
    · rw [node_of_le outside]
      exact .inl rfl

/-- A node is changed that keeps its outline and its statements. -/
theorem modify {id : NodeId} {change : Node → Node}
    (outline : (change (tree.node id)).outline = (tree.node id).outline)
    (statements : (change (tree.node id)).statements = (tree.node id).statements) :
    tree.Completes (tree.modify id change) := by
  refine ⟨by simp, fun other _ => ?_, fun other _ => children_modify statements other,
    fun other outside => .inl ?_⟩
  · rcases node_modify_cases tree id other change with kept | ⟨rfl, changed⟩
    · rw [kept]
    · rw [changed, outline]
  · rw [children_modify statements, children_eq, node_of_le outside]
    rfl

variable (completes : before.Completes after)

include completes

/-- Each node holds nothing or what one like it held. -/
theorem source (id : NodeId) : after.children id = [] ∨ ∃ original < before.size,
    after.children id = before.children original ∧
      (after.node id).outline = (before.node original).outline := by
  rcases Nat.lt_or_ge id before.size with inside | outside
  · exact .inr ⟨id, inside, completes.children id inside, completes.outline id inside⟩
  · exact completes.added id outside

theorem holds {upper lower : NodeId} (held : before.Holds upper lower) : after.Holds upper lower := by
  rw [Holds, completes.children upper (lt_of_mem_children held)]
  exact held

theorem isOrdered (ordered : before.IsOrdered) : after.IsOrdered where
  rooted := by
    rw [Node.congr_outline Node.isBlock_outline (completes.outline root ?_)]
    · exact ordered.rooted
    · refine lt_of_body? ?_
      exact Node.owns_of_isBlock ordered.rooted
  order := fun holder => by
    rcases completes.source holder with empty | ⟨original, _, same, _⟩
    · rw [empty]
      exact .nil after
    · rw [same]
      exact (ordered.order original).congr fun id held =>
        .of_outline (completes.outline id (ordered.inside held))
  inside := fun {holder child} held => by
    rcases completes.source holder with empty | ⟨original, _, same, _⟩
    · rw [empty] at held
      cases held
    · rw [same] at held
      exact Nat.lt_of_lt_of_le (ordered.inside held) completes.size
  cases := fun {holder child} held isCase => by
    rcases completes.source holder with empty | ⟨original, _, same, outline⟩
    · rw [empty] at held
      cases held
    · rw [same] at held
      rw [Node.congr_outline Node.isCase_outline (completes.outline child (ordered.inside held))] at isCase
      rw [Node.congr_outline Node.isSwitch_outline outline]
      exact ordered.cases held isCase
  jumps := fun {holder child} held test needs => by
    rcases completes.source holder with empty | ⟨original, _, same, _⟩
    · rw [empty] at held
      cases held
    · rw [same] at held
      rw [Node.congr_outline Node.enclosure?_outline (completes.outline child (ordered.inside held))] at needs
      refine (ordered.jumps held needs).keep needs
        (fun around inside => .of_outline (completes.outline around inside)) fun _ chain => ?_
      exact Relation.TransGen.mono (fun _ _ held => completes.holds held) _ _ chain

end Completes

/-- In one body some statements give way to others. -/
structure Exchanges (host : NodeId) (left old new right : List NodeId) (before after : ScriptTree) :
    Prop where
  /-- No node is lost. -/
  size : before.size ≤ after.size
  /-- Nodes keep their outlines. -/
  outline : ∀ id < before.size, (after.node id).outline = (before.node id).outline
  /-- The body held the old statements. -/
  held : before.children host = left ++ old ++ right
  /-- It holds the new ones, and no other body changes. -/
  children : after.children = Function.update before.children host (left ++ new ++ right)

namespace Exchanges

variable {tree before after : ScriptTree} {host id : NodeId} {left old new right : List NodeId}

theorem of_node (owns : (before.node host).body?.isSome)
    (held : before.children host = left ++ old ++ right) (size : after.size = before.size)
    (node : after.node = Function.update before.node host
      ((before.node host).holding (left ++ new ++ right))) :
    Exchanges host left old new right before after := by
  refine ⟨Nat.le_of_eq size.symm, fun id _ => ?_, held, funext fun id => ?_⟩
  · rw [node, Function.update_apply]
    split
    · rename_i here
      rw [Node.outline_mapBody, here]
    · rfl
  · rw [children_eq, node, Function.update_apply, Function.update_apply]
    split
    · exact Node.statements_holding owns _
    · rfl

theorem append (owns : (tree.node host).body?.isSome) (id : NodeId) :
    Exchanges host (tree.children host) [] [id] [] tree (tree.append host id) :=
  of_node owns (by simp) (Rearranges.append tree host id).size (by
    rw [node_append_eq owns, List.append_nil])

/-- A statement is taken out of its body, or nothing changes. -/
theorem detach (tree : ScriptTree) (id : NodeId) : (tree.detach id).1 = tree ∨
    ∃ host left right, Exchanges host left [id] [] right tree (tree.detach id).1 := by
  by_cases held : ∃ host, tree.parent? id = some host ∧ id ∈ tree.children host
  · obtain ⟨host, linked, listed⟩ := held
    obtain ⟨left, right, split, first⟩ := List.eq_append_cons_of_mem listed
    refine .inr ⟨host, left, right, of_node (Node.owns_of_mem_statements listed) (by simp [split])
      (size_detach tree id) ?_⟩
    rw [node_detach linked split first, List.append_nil]
  · refine .inl ?_
    rw [detach_eq_self fun host linked listed => held ⟨host, linked, listed⟩]

/-- A statement takes the place of another one, or nothing changes. -/
theorem replace (tree : ScriptTree) (former latter : NodeId) : (tree.replace former latter).1 = tree ∨
    ∃ host left right, Exchanges host left [former] [latter] right tree
      (tree.replace former latter).1 := by
  by_cases held : ∃ host, tree.parent? former = some host ∧ former ∈ tree.children host
  · obtain ⟨host, linked, listed⟩ := held
    obtain ⟨left, right, split, first⟩ := List.eq_append_cons_of_mem listed
    refine .inr ⟨host, left, right, of_node (Node.owns_of_mem_statements listed) (by simp [split])
      (size_replace tree former latter) ?_⟩
    rw [node_replace linked split first, List.append_assoc, List.singleton_append]
  · refine .inl ?_
    rw [ScriptTree.replace, slot?_eq_none fun host linked listed => held ⟨host, linked, listed⟩]

variable (exchanges : Exchanges host left old new right before after)

include exchanges

theorem children_host : after.children host = left ++ new ++ right := by
  rw [exchanges.children, Function.update_self]

theorem children_of_ne (other : id ≠ host) : after.children id = before.children id := by
  rw [exchanges.children, Function.update_of_ne other]

/-- A child statement is a new one or was one before. -/
theorem child_cases {holder child : NodeId} (held : child ∈ after.children holder) :
    holder = host ∧ child ∈ new ∨ child ∈ before.children holder := by
  by_cases here : holder = host
  · rw [here, exchanges.children_host] at held
    rw [here, exchanges.held]
    simp only [List.mem_append] at held ⊢
    tauto
  · exact .inr (exchanges.children_of_ne here ▸ held)

/-- Other statements than the old ones are held as before. -/
theorem holds {upper lower : NodeId} (held : before.Holds upper lower) (kept : lower ∉ old) :
    after.Holds upper lower := by
  by_cases here : upper = host
  · rw [Holds, here, exchanges.held] at held
    rw [Holds, here, exchanges.children_host]
    simp only [List.mem_append] at held ⊢
    tauto
  · rw [Holds, exchanges.children_of_ne here]
    exact held

/-- Loose statements may give way to others that are in order. -/
theorem isOrdered (ordered : before.IsOrdered) (loose : ∀ id ∈ old, (before.node id).isLoose)
    (order : after.InOrder (left ++ new ++ right)) (inside : ∀ id ∈ new, id < after.size)
    (cases : ∀ id ∈ new, (after.node id).isCase → (after.node host).isSwitch)
    (jumps : ∀ id ∈ new, ∀ {test}, (after.node id).enclosure? = some test →
      after.StandsWithin test id) : after.IsOrdered where
  rooted := by
    rw [Node.congr_outline Node.isBlock_outline
      (exchanges.outline root (lt_of_body? (Node.owns_of_isBlock ordered.rooted)))]
    exact ordered.rooted
  order := fun holder => by
    by_cases here : holder = host
    · rw [here, exchanges.children_host]
      exact order
    · rw [exchanges.children_of_ne here]
      exact (ordered.order holder).congr fun id held =>
        .of_outline (exchanges.outline id (ordered.inside held))
  inside := fun held => by
    rcases exchanges.child_cases held with ⟨_, listed⟩ | former
    · exact inside _ listed
    · exact Nat.lt_of_lt_of_le (ordered.inside former) exchanges.size
  cases := fun {holder child} held isCase => by
    rcases exchanges.child_cases held with ⟨rfl, listed⟩ | former
    · exact cases _ listed isCase
    · rw [Node.congr_outline Node.isCase_outline (exchanges.outline child (ordered.inside former))] at isCase
      rw [Node.congr_outline Node.isSwitch_outline (exchanges.outline holder (lt_of_mem_children former))]
      exact ordered.cases former isCase
  jumps := fun {holder child} held test needs => by
    rcases exchanges.child_cases held with ⟨_, listed⟩ | former
    · exact jumps _ listed needs
    · rw [Node.congr_outline Node.enclosure?_outline (exchanges.outline child (ordered.inside former))] at needs
      refine (ordered.jumps former needs).keep needs
        (fun around inside => .of_outline (exchanges.outline around inside)) fun _ chain => ?_
      refine transGen_of_loose (fun held other => exchanges.holds held fun listed => ?_) ?_ chain
      · exact absurd (loose _ listed) (Bool.eq_false_iff.mp other)
      · rw [Bool.eq_false_iff]
        intro light
        cases (Node.enclosure?_eq_none_of_isLoose light).symm.trans needs

end Exchanges

namespace IsOrdered

variable {catalog : ActionCatalog} {tree before after : ScriptTree} {host id : NodeId}
  {left old new right : List NodeId}

/-- Loose statements may give way to at most one of their kind. -/
theorem exchange (ordered : before.IsOrdered) (exchanges : Exchanges host left old new right before after)
    (taken : old ≠ []) (former : ∀ id ∈ old, (before.node id).isLoose) (single : new.length ≤ 1)
    (latter : ∀ id ∈ new, id < after.size ∧ (after.node id).isLoose) : after.IsOrdered := by
  have free : ∀ id ∈ new, (after.node id).isFree :=
    fun id listed => Node.isFree_of_isPlain (Node.isPlain_of_isLoose (latter id listed).2)
  have kept : after.InOrder (left ++ old ++ right) :=
    (exchanges.held ▸ ordered.order host).congr fun id listed =>
      .of_outline (exchanges.outline id (ordered.inside (exchanges.held ▸ listed)))
  have plain : ∀ id ∈ old, (after.node id).isPlain := fun id listed => by
    have loose := former id listed
    rw [← Node.isLoose_congr (exchanges.outline id (Recover.lt_of_isLoose loose))] at loose
    exact Node.isPlain_of_isLoose loose
  have fits : after.InOrder new := by
    cases new with
    | nil => exact .nil after
    | cons id rest =>
        obtain rfl : rest = [] := List.eq_nil_of_length_eq_zero (Nat.le_zero.mp (Nat.le_of_succ_le_succ single))
        refine ⟨?_, .singleton _⟩
        rintro _ ⟨⟩
        exact Node.isOtherwise_of_isFree (free id (List.mem_singleton_self id))
  refine exchanges.isOrdered ordered former
    (kept.exchange taken plain fits fun id listed => free id (List.mem_of_mem_head? listed))
    (fun id listed => (latter id listed).1) (fun id listed isCase => ?_) fun id listed test needs => ?_
  · cases (Node.isCase_of_isFree (free id listed)).symm.trans isCase
  · cases (Node.enclosure?_eq_none_of_isLoose (latter id listed).2).symm.trans needs

/-- A loose statement may be taken out. -/
theorem detach (ordered : tree.IsOrdered) (loose : (tree.node id).isLoose) :
    (tree.detach id).1.IsOrdered := by
  rcases Exchanges.detach tree id with same | ⟨host, left, right, exchanges⟩
  · rwa [same]
  · exact ordered.exchange exchanges (List.cons_ne_nil _ _) (by simpa using loose) (Nat.zero_le _) nofun

/-- A loose statement may take the place of another one. -/
theorem replace {former latter : NodeId} (ordered : tree.IsOrdered)
    (loose : (tree.node former).isLoose) (inside : latter < tree.size)
    (fits : (tree.node latter).isLoose) : (tree.replace former latter).1.IsOrdered := by
  rcases Exchanges.replace tree former latter with same | ⟨host, left, right, exchanges⟩
  · rwa [same]
  · have keeps := Rearranges.replace tree former latter
    refine ordered.exchange exchanges (List.cons_ne_nil _ _) (by simpa using loose) (Nat.le_refl _)
      fun id listed => ?_
    obtain rfl := List.mem_singleton.mp listed
    exact ⟨inside.trans_eq keeps.size.symm, (Node.isLoose_congr (keeps.outline id)).trans fits⟩

/-- A statement may be put at the end of a body. -/
theorem append (ordered : tree.IsOrdered) (owns : (tree.node host).body?.isSome)
    (inside : id < tree.size)
    (branch : (tree.node id).isOtherwise →
      ∃ last ∈ (tree.children host).getLast?, (tree.node last).isBranch)
    (cases : (tree.node id).isCase → (tree.node host).isSwitch ∧
      ∀ last ∈ (tree.children host).getLast?, (tree.node last).isCase)
    (jumps : ∀ {test}, (tree.node id).enclosure? = some test → ∃ around, test (tree.node around) ∧
      Relation.ReflTransGen tree.Holds around host) : (tree.append host id).IsOrdered := by
  have exchanges := Exchanges.append owns id
  have outline := (Rearranges.append tree host id).outline
  refine exchanges.isOrdered ordered nofun ?_ ?_ ?_ ?_
  · rw [List.append_nil]
    exact ((ordered.order host).concat branch fun isCase => (cases isCase).2).congr fun id _ =>
      .of_outline (outline id)
  · intro id listed
    rw [List.mem_singleton.mp listed, (Rearranges.append tree host _).size]
    exact inside
  · intro id listed isCase
    obtain rfl := List.mem_singleton.mp listed
    rw [Node.congr_outline Node.isCase_outline (outline id)] at isCase
    rw [Node.congr_outline Node.isSwitch_outline (outline host)]
    exact (cases isCase).1
  · intro id listed test needs
    obtain rfl := List.mem_singleton.mp listed
    rw [Node.congr_outline Node.enclosure?_outline (outline id)] at needs
    obtain ⟨around, passes, chain⟩ := jumps needs
    refine ⟨around, ?_, .tail' (b := host) ?_ ?_⟩
    · rwa [(Node.SameKind.of_outline (outline around)).encloses needs]
    · exact Relation.ReflTransGen.mono (fun _ _ held => exchanges.holds held List.not_mem_nil) _ _ chain
    · rw [Holds, exchanges.children_host]
      simp

section Wrapping

variable {block : NodeId} {first : Nat} (forest : tree.IsForest) (sound : tree.IsSound catalog)
  (inside : first ≤ (tree.children host).length) (unplaced : tree.IsUnplaced block)
  (bare : tree.children block = []) (owns : (tree.node block).body?.isSome)
  (above : (tree.node host).body?.isSome) (different : host ≠ block)

include forest sound inside unplaced bare owns above different

/-- The last statements of a body may be moved into a block at its end if the first of them is free. -/
theorem wrap (ordered : tree.IsOrdered) (isBlock : (tree.node block).isBlock)
    (loose : ∀ id ∈ ((tree.children host).drop first).head?, (tree.node id).isLoose) :
    (tree.wrapped host first block).IsOrdered := by
  have children := forest.children_wrapped inside unplaced bare owns above different sound
  have rearranges : Rearranges _ tree (tree.wrapped host first block) :=
    (Rearranges.move _ _ _).trans (.insert _ _ _ _)
  have outline := rearranges.outline
  have edges : ∀ {upper lower}, (tree.wrapped host first block).Holds upper lower → _ :=
    fun held => forest.holds_wrapped_cases inside unplaced bare owns above different sound held
  have former : ∀ {holder child}, (tree.wrapped host first block).Holds holder child → child ≠ block →
      ∃ place, tree.Holds place child := by
    intro holder child held other
    rcases edges held with ⟨_, same⟩ | ⟨_, there⟩ | ⟨_, _, there⟩
    · exact absurd same other
    · exact ⟨host, there⟩
    · exact ⟨holder, there⟩
  have free : (tree.node block).isFree := Node.isFree_of_isPlain (Node.isPlain_of_isBlock isBlock)
  have not_case : (tree.node block).isCase = false := Node.isCase_of_isFree free
  refine ⟨?_, fun holder => ?_, fun {holder child} held => ?_, fun {holder child} held isCase => ?_,
    fun {holder child} held test needs => ?_⟩
  · rw [Node.congr_outline Node.isBlock_outline (outline root)]
    exact ordered.rooted
  · have moved : tree.InOrder ((tree.wrapped host first block).children holder) := ?_
    · exact moved.congr fun id _ => .of_outline (outline id)
    rw [children, Function.update_apply, Function.update_apply]
    split
    · refine ((ordered.order host).take first).concat (fun follows => ?_) fun isCase => ?_
      · rw [Node.isOtherwise_of_isFree free] at follows
        cases follows
      · rw [not_case] at isCase
        cases isCase
    · split
      · exact (ordered.order host).drop fun id listed =>
          Node.isFree_of_isPlain (Node.isPlain_of_isLoose (loose id listed))
      · exact ordered.order holder
  · rw [rearranges.size]
    by_cases same : child = block
    · exact same ▸ unplaced.inside
    · obtain ⟨place, there⟩ := former held same
      exact ordered.inside there
  · rw [Node.congr_outline Node.isCase_outline (outline child)] at isCase
    rw [Node.congr_outline Node.isSwitch_outline (outline holder)]
    rcases edges held with ⟨_, rfl⟩ | ⟨rfl, _⟩ | ⟨_, _, there⟩
    · cases not_case.symm.trans isCase
    · rw [children, Function.update_of_ne (Ne.symm different), Function.update_self] at held
      have behind := InOrder.isCase_eq_false ((ordered.order host).chain.drop first)
        (fun id listed => Node.isCase_of_isFree
          (Node.isFree_of_isPlain (Node.isPlain_of_isLoose (loose id listed)))) held
      cases behind.symm.trans isCase
    · exact ordered.cases there isCase
  · rw [Node.congr_outline Node.enclosure?_outline (outline child)] at needs
    have other : child ≠ block := by
      rintro rfl
      cases (Node.enclosure?_eq_none_of_owns owns).symm.trans needs
    obtain ⟨place, there⟩ := former held other
    refine (ordered.jumps there needs).keep needs
      (fun around _ => .of_outline (outline around)) fun _ chain => ?_
    exact Relation.TransGen.lift' id (fun _ _ held =>
      forest.transGen_wrapped inside unplaced bare owns above different sound held) _ _ chain

end Wrapping

end IsOrdered

end ScriptTree
end NwScript
