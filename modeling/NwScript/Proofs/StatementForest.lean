import NwScript.Proofs.CleanupSteps
import NwScript.Proofs.RecoveryMoves

/-!
# The forest of statements

Where no deferred argument begins, every statement has at most one place, and every edit of a recovery
keeps it so.  Only declarations and changes by one are ever taken out, so everything else that hangs
below the body of the subroutine goes on hanging there.
-/

namespace NwScript
namespace ScriptTree

/-- A body holds a statement. -/
def Holds (tree : ScriptTree) (upper lower : NodeId) : Prop :=
  lower ∈ tree.children upper

/-- A statement is in the body of the subroutine or in a body below it. -/
def Hangs (tree : ScriptTree) : NodeId → Prop :=
  Relation.ReflTransGen tree.Holds root

/-- Each statement has at most one place, below which it does not stand itself.  Expressions own no
statements and were made after their operands. -/
structure IsForest (tree : ScriptTree) : Prop where
  /-- Statements link to their holder. -/
  linked : ∀ {holder child : NodeId}, child ∈ tree.children holder →
    tree.parent? child = some holder
  /-- No body holds a statement twice. -/
  once : ∀ holder, (tree.children holder).Nodup
  /-- Nothing stands below itself. -/
  acyclic : ∀ id, ¬Relation.TransGen tree.Holds id id
  /-- The body of the subroutine stands nowhere. -/
  top : ∀ holder, root ∉ tree.children holder
  /-- Expressions come behind their operands. -/
  ordered : ∀ {id operand : NodeId}, (tree.node id).isExpression →
    operand ∈ (tree.node id).operands → operand < id
  /-- There are no deferred arguments. -/
  plain : ∀ id, (tree.node id).isClosure = false

section Relations

variable {α : Type} {before after : α → α → Prop}

/-- A relation with one more edge, from whose end no chain leads to its start, stays free of
circles. -/
theorem acyclic_of_edge {upper lower : α}
    (edges : ∀ {first second}, after first second →
      before first second ∨ first = upper ∧ second = lower)
    (apart : ¬Relation.ReflTransGen before lower upper)
    (acyclic : ∀ id, ¬Relation.TransGen before id id) (id : α) :
    ¬Relation.TransGen after id id := by
  have chains : ∀ {first last}, Relation.TransGen after first last →
      Relation.TransGen before first last ∨
        Relation.ReflTransGen before first upper ∧ Relation.ReflTransGen before lower last := by
    intro first last chain
    induction chain with
    | single edge =>
        rcases edges edge with old | ⟨rfl, rfl⟩
        · exact .inl (.single old)
        · exact .inr ⟨.refl, .refl⟩
    | tail _ edge induction =>
        rcases edges edge with old | ⟨rfl, rfl⟩
        · exact induction.imp (fun chain => chain.tail old) fun ⟨up, down⟩ => ⟨up, down.tail old⟩
        · rcases induction with chain | ⟨up, _⟩
          · exact .inr ⟨chain.to_reflTransGen, .refl⟩
          · exact .inr ⟨up, .refl⟩
  intro circle
  rcases chains circle with old | ⟨up, down⟩
  · exact acyclic id old
  · exact apart (down.trans up)

/-- A chain that does not end at one of some places without successors avoids these places. -/
theorem chain_of_dropped (Dropped : α → Prop) {first last : α}
    (bare : ∀ {place next}, Dropped place → ¬before place next)
    (kept : ∀ {upper lower}, before upper lower → ¬Dropped lower → after upper lower)
    (chain : Relation.ReflTransGen before first last) :
    Dropped last ∨ Relation.ReflTransGen after first last := by
  induction chain with
  | refl => exact .inr .refl
  | @tail middle last _ edge induction =>
      by_cases here : Dropped last
      · exact .inl here
      · rcases induction with dropped | chain
        · exact absurd edge (bare dropped)
        · exact .inr (chain.tail (kept edge here))

end Relations

namespace IsForest

variable {catalog : ActionCatalog} {tree before after : ScriptTree} {extra : List NodeId}
  {holder child : NodeId}

theorem holder_unique (forest : tree.IsForest) {first second : NodeId}
    (here : child ∈ tree.children first) (there : child ∈ tree.children second) : first = second :=
  Option.some.inj ((forest.linked here).symm.trans (forest.linked there))

/-- Chains from a statement that stands nowhere meet no body below the subroutine's. -/
theorem apart_of_hangs (forest : tree.IsForest) (free : ∀ holder, child ∉ tree.children holder)
    (deep : child ≠ root) (hangs : tree.Hangs holder) :
    ¬Relation.ReflTransGen tree.Holds child holder := by
  intro chain
  have unique : Relator.RightUnique (Function.swap tree.Holds) :=
    fun _ _ _ first second => forest.holder_unique first second
  have cases := Relation.ReflTransGen.total_of_right_unique unique
    (Relation.reflTransGen_swap.mpr hangs) (Relation.reflTransGen_swap.mpr chain)
  rcases cases with above | below
  · rcases (Relation.reflTransGen_swap.mp above).cases_tail with same | ⟨last, _, held⟩
    · exact deep same.symm
    · exact forest.top last held
  · rcases (Relation.reflTransGen_swap.mp below).cases_tail with same | ⟨last, _, held⟩
    · exact deep same
    · exact free last held

/-- Where bodies and links of statements are the same, so is the forest. -/
theorem of_same (forest : before.IsForest) (children : ∀ id, after.children id = before.children id)
    (parents : ∀ {holder child}, child ∈ before.children holder →
      after.parent? child = before.parent? child)
    (ordered : ∀ {id operand : NodeId}, (after.node id).isExpression →
      operand ∈ (after.node id).operands → operand < id)
    (plain : ∀ id, (after.node id).isClosure = false) : after.IsForest := by
  have holds : after.Holds = before.Holds := by
    funext upper lower
    exact congrArg (lower ∈ ·) (children upper)
  refine ⟨fun {holder child} held => ?_, fun holder => ?_, fun id => ?_, fun holder => ?_, ordered,
    plain⟩
  · rw [children] at held
    rw [parents held, forest.linked held]
  · rw [children]
    exact forest.once holder
  · rw [holds]
    exact forest.acyclic id
  · rw [children]
    exact forest.top holder

/-- Where only child statements change, operands stay in their order. -/
theorem of_rearranges (forest : before.IsForest) (rearranges : Rearranges extra before after)
    (linked : ∀ {holder child : NodeId}, child ∈ after.children holder →
      after.parent? child = some holder)
    (once : ∀ holder, (after.children holder).Nodup)
    (acyclic : ∀ id, ¬Relation.TransGen after.Holds id id)
    (top : ∀ holder, root ∉ after.children holder) : after.IsForest where
  linked := linked
  once := once
  acyclic := acyclic
  top := top
  ordered := by
    intro id operand expression used
    rw [Node.isExpression_congr (rearranges.outline id)] at expression
    rw [rearranges.operands] at used
    exact forest.ordered expression used
  plain := fun id => (Node.isClosure_congr (rearranges.outline id)).trans (forest.plain id)

/-- A node that owns no statements yet and is no deferred argument may be added. -/
theorem add (forest : tree.IsForest) (sound : tree.IsSound catalog) {node : Node}
    (operands : ∀ operand ∈ node.operands, operand < tree.size ∧ (tree.node operand).isExpression)
    (empty : node.statements = []) (plain : node.isClosure = false) :
    (tree.add node).1.IsForest := by
  have nodes := node_add tree node
  have children : ∀ id, (tree.add node).1.children id = tree.children id := by
    intro id
    rw [children_eq, nodes, Function.update_apply]
    split
    · rename_i here
      rw [empty, here, children_of_le (Nat.le_refl _)]
    · rfl
  refine forest.of_same children (fun {holder child} held => ?_) (fun {id operand} expression used => ?_)
    fun id => ?_
  · rw [parent?_add _ fun operand used => sound.sized.symm ▸ (operands operand used).1, if_neg]
    intro used
    exact absurd (operands child used).2 (by simp [(sound.children held).2])
  · rw [nodes, Function.update_apply] at expression used
    split at used
    · rename_i here
      exact here.symm ▸ (operands operand used).1
    · rename_i other
      rw [if_neg other] at expression
      exact forest.ordered expression used
  · rw [nodes, Function.update_apply]
    split
    · exact plain
    · exact forest.plain id

section Appending

variable (forest : tree.IsForest) (sound : tree.IsSound catalog)
  (owns : (tree.node holder).body?.isSome) (unplaced : tree.IsUnplaced child)

include owns

theorem holds_append {upper lower : NodeId} :
    (tree.append holder child).Holds upper lower ↔
      tree.Holds upper lower ∨ upper = holder ∧ lower = child := by
  rw [Holds, children_eq, node_append_eq owns, Function.update_apply]
  split
  · rename_i here
    rw [Node.statements_holding owns, List.mem_append, List.mem_singleton, here]
    simp [Holds]
  · rename_i other
    simp [Holds, children_eq, other]

include forest sound unplaced

/-- A statement that stands nowhere may be attached to a node that is not below it. -/
theorem append (apart : ¬Relation.ReflTransGen tree.Holds child holder) :
    (tree.append holder child).IsForest := by
  have links := parent?_append owns (sound.sized.symm ▸ unplaced.inside)
  refine forest.of_rearranges (.append tree holder child) (fun {upper lower} held => ?_)
    (fun upper => ?_) (fun id => ?_) fun upper held => ?_
  · rw [links]
    rcases (holds_append owns).mp held with old | ⟨rfl, rfl⟩
    · rw [Function.update_of_ne (by rintro rfl; exact unplaced.free upper old)]
      exact forest.linked old
    · rw [Function.update_self]
  · rw [children_eq, node_append_eq owns, Function.update_apply]
    split
    · rw [Node.statements_holding owns, List.nodup_append_comm]
      exact List.nodup_cons.mpr ⟨unplaced.free holder, forest.once holder⟩
    · exact forest.once upper
  · exact acyclic_of_edge (holds_append owns).mp apart forest.acyclic id
  · rcases (holds_append owns).mp held with old | ⟨_, here⟩
    · exact forest.top upper old
    · exact unplaced.deep here.symm

end Appending

section Detaching

variable (forest : tree.IsForest) {statement : NodeId}

include forest

/-- A statement that is taken out was held by its holder, or nothing changes. -/
theorem detach_cases (statement : NodeId) :
    (∃ parent left right, tree.parent? statement = some parent ∧
      tree.children parent = left ++ statement :: right ∧ statement ∉ left) ∨
    (∀ holder, statement ∉ tree.children holder) := by
  by_cases held : ∃ holder, statement ∈ tree.children holder
  · obtain ⟨parent, here⟩ := held
    obtain ⟨left, right, split, first⟩ := List.eq_append_cons_of_mem here
    exact .inl ⟨parent, left, right, forest.linked here, split, first⟩
  · exact .inr (not_exists.mp held)

theorem children_detach (upper : NodeId) :
    (tree.detach statement).1.children upper = (tree.children upper).filter (· ≠ statement) := by
  have others : ∀ {other}, statement ∉ tree.children other →
      tree.children other = (tree.children other).filter (· ≠ statement) := by
    intro other absent
    refine (List.filter_eq_self.mpr fun child held => ?_).symm
    simpa using fun same : child = statement => absent (same ▸ held)
  rcases forest.detach_cases statement with ⟨parent, left, right, linked, split, first⟩ | free
  · rw [children_eq, node_detach linked split first, Function.update_apply]
    have here : statement ∈ tree.children parent := by simp [split]
    split
    · rename_i same
      rw [Node.statements_holding (Node.owns_of_mem_statements here), same, split,
        filter_ne_of_nodup (split ▸ forest.once parent)]
    · rename_i other
      exact others fun there => other (forest.holder_unique there here)
  · rw [detach_eq_self fun holder _ => free holder]
    exact others (free upper)

theorem parent?_detach_of_ne (other : child ≠ statement) :
    (tree.detach statement).1.parent? child = tree.parent? child := by
  rcases forest.detach_cases statement with ⟨parent, left, right, linked, split, first⟩ | free
  · rw [parent?_detach linked split first, Function.update_of_ne other]
  · rw [detach_eq_self fun holder _ => free holder]

theorem holds_detach {upper lower : NodeId} :
    (tree.detach statement).1.Holds upper lower ↔ tree.Holds upper lower ∧ lower ≠ statement := by
  rw [Holds, forest.children_detach, List.mem_filter]
  simp [Holds]

theorem detach (statement : NodeId) : (tree.detach statement).1.IsForest := by
  refine forest.of_rearranges (.detach tree statement) (fun {upper lower} held => ?_)
    (fun upper => ?_) (fun id circle => ?_) fun upper held => ?_
  · obtain ⟨old, other⟩ := forest.holds_detach.mp held
    rw [forest.parent?_detach_of_ne other, forest.linked old]
  · rw [forest.children_detach]
    exact (forest.once upper).filter _
  · exact forest.acyclic id (Relation.TransGen.mono (fun _ _ held => (forest.holds_detach.mp held).1) _ _ circle)
  · exact forest.top upper (forest.holds_detach.mp held).1

/-- What is taken out holds nothing, so everything else goes on hanging. -/
theorem hangs_detach (bare : tree.children statement = []) {id : NodeId} (hangs : tree.Hangs id) :
    id = statement ∨ (tree.detach statement).1.Hangs id :=
  chain_of_dropped (· = statement) (fun same held => by simp [Holds, same, bare] at held)
    (fun held other => forest.holds_detach.mpr ⟨held, other⟩) hangs

end Detaching

section Replacing

variable (forest : tree.IsForest) (sound : tree.IsSound catalog) {old new : NodeId}
  (unplaced : tree.IsUnplaced new) (bare : tree.children new = [])

include forest

theorem holds_replace {upper lower : NodeId} : (tree.replace old new).1.Holds upper lower ↔
    tree.Holds upper lower ∧ lower ≠ old ∨ tree.Holds upper old ∧ lower = new := by
  rcases forest.detach_cases old with ⟨parent, left, right, linked, split, first⟩ | free
  · have here : old ∈ tree.children parent := by simp [split]
    have rest := filter_ne_of_nodup (split ▸ forest.once parent)
    rw [Holds, children_eq, node_replace linked split first, Function.update_apply]
    split
    · rename_i same
      have listed : lower ∈ left ++ new :: right ↔ lower = new ∨ lower ∈ left ++ right := by
        simp only [List.mem_append, List.mem_cons]
        exact or_left_comm
      rw [Node.statements_holding (Node.owns_of_mem_statements here), listed, ← rest, ← split,
        List.mem_filter, same, or_comm]
      simp [Holds, here]
    · rename_i other
      have absent : old ∉ tree.children upper := fun there => other (forest.holder_unique there here)
      refine ⟨fun held => .inl ⟨held, fun same => absent (same ▸ held)⟩, ?_⟩
      rintro (⟨held, _⟩ | ⟨held, _⟩)
      · exact held
      · exact absurd held absent
  · have same : tree.replace old new = (tree, false) := by
      rw [ScriptTree.replace, slot?_eq_none fun holder _ => free holder]
    rw [same]
    refine ⟨fun held => .inl ⟨held, fun here => free upper (here ▸ held)⟩, ?_⟩
    rintro (⟨held, _⟩ | ⟨held, _⟩)
    · exact held
    · exact absurd held (free upper)

/-- What is replaced holds nothing, so everything else goes on hanging. -/
theorem hangs_replace (bare : tree.children old = []) {id : NodeId} (hangs : tree.Hangs id) :
    id = old ∨ (tree.replace old new).1.Hangs id :=
  chain_of_dropped (· = old) (fun same held => by simp [Holds, same, bare] at held)
    (fun held other => forest.holds_replace.mpr (.inl ⟨held, other⟩)) hangs

include sound unplaced bare

/-- A statement that stands nowhere may take the place of another one. -/
theorem replace : (tree.replace old new).1.IsForest := by
  rcases forest.detach_cases old with ⟨parent, left, right, linked, split, first⟩ | free
  · have here : old ∈ tree.children parent := by simp [split]
    have links := parent?_replace linked split first (sound.sized.symm ▸ unplaced.inside)
    refine forest.of_rearranges (.replace tree old new) (fun {upper lower} held => ?_)
      (fun upper => ?_) (fun id => ?_) fun upper held => ?_
    · rcases forest.holds_replace.mp held with ⟨former, other⟩ | ⟨former, rfl⟩
      · have different : lower ≠ new := fun same => unplaced.free upper (same ▸ former)
        rw [links, Function.update_of_ne different, Function.update_of_ne other,
          forest.linked former]
      · rw [links, Function.update_self, forest.holder_unique former here]
    · rw [children_eq, node_replace linked split first, Function.update_apply]
      split
      · have once := forest.once parent
        have absent := unplaced.free parent
        rw [split, List.nodup_middle] at once
        rw [split] at absent
        rw [Node.statements_holding (Node.owns_of_mem_statements here), List.nodup_middle]
        refine List.nodup_cons.mpr ⟨fun listed => absent ?_, (List.nodup_cons.mp once).2⟩
        simp only [List.mem_append, List.mem_cons] at listed ⊢
        exact listed.imp_right .inr
      · exact forest.once upper
    · have apart : ¬Relation.ReflTransGen tree.Holds new parent := by
        intro chain
        rcases chain.cases_head with same | ⟨next, held, _⟩
        · simp [← same, bare] at here
        · simp [Holds, bare] at held
      exact acyclic_of_edge (fun held => (forest.holds_replace.mp held).imp And.left
        fun ⟨former, same⟩ => ⟨forest.holder_unique former here, same⟩) apart forest.acyclic id
    · rcases forest.holds_replace.mp held with ⟨former, _⟩ | ⟨_, same⟩
      · exact forest.top upper former
      · exact unplaced.deep same.symm
  · rwa [ScriptTree.replace, slot?_eq_none fun holder _ => free holder]

end Replacing

section Wrapping

variable (forest : tree.IsForest) {block : NodeId} {first : Nat}
  (inside : first ≤ (tree.children holder).length) (unplaced : tree.IsUnplaced block)
  (bare : tree.children block = []) (owns : (tree.node block).body?.isSome)
  (above : (tree.node holder).body?.isSome) (different : holder ≠ block)

include forest

theorem disjoint_drop (front : child ∈ (tree.children holder).take first) :
    child ∉ (tree.children holder).drop first := by
  have parted := forest.once holder
  rw [← List.take_append_drop first (tree.children holder)] at parted
  exact fun back => (List.nodup_append.mp parted).2.2 child front child back rfl

/-- Statements that move leave those before them. -/
theorem remaining_drop :
    tree.remaining holder ((tree.children holder).drop first) = (tree.children holder).take first := by
  have linked : ∀ child ∈ (tree.children holder).drop first, tree.parent? child = some holder :=
    fun child listed => forest.linked (List.mem_of_mem_drop listed)
  let stands := fun child => decide
    (child ∉ (tree.children holder).drop first ∨ tree.parent? child ≠ some holder)
  have front : ((tree.children holder).take first).filter stands = (tree.children holder).take first :=
    List.filter_eq_self.mpr fun child listed => by simp [stands, forest.disjoint_drop listed]
  have back : ((tree.children holder).drop first).filter stands = [] :=
    List.filter_eq_nil_iff.mpr fun child listed => by simp [stands, listed, linked child listed]
  calc tree.remaining holder ((tree.children holder).drop first)
      = ((tree.children holder).take first ++ (tree.children holder).drop first).filter stands := by
        rw [List.take_append_drop]
        rfl
    _ = (tree.children holder).take first := by
        rw [List.filter_append, front, back, List.append_nil]

include inside bare owns above different

theorem wrap_spec (sized : tree.parents.size = tree.size) (there : block < tree.size) :
    (tree.wrapped holder first block).node = Function.update
      (Function.update tree.node block
        ((tree.node block).holding ((tree.children holder).drop first)))
      holder ((tree.node holder).holding ((tree.children holder).take first ++ [block])) ∧
    ∀ id, (tree.wrapped holder first block).parent? id =
      if id = block then some holder
      else if id ∈ (tree.children holder).drop first then some block
      else tree.parent? id := by
  have distinct := forest.once holder
  obtain ⟨nodes, links⟩ := foldl_move_spec different owns (distinct.sublist (List.drop_sublist _ _))
    distinct (fun statement listed => List.mem_of_mem_drop listed)
    (fun statement listed => .inl (forest.linked (List.mem_of_mem_drop listed)))
  rw [forest.remaining_drop, bare, List.nil_append] at nodes
  have size := size_parents_foldl_move block tree ((tree.children holder).drop first)
  rw [wrapped]
  generalize ((tree.children holder).drop first).foldl (move block) tree = moved at *
  have node_holder : moved.node holder =
      (tree.node holder).holding ((tree.children holder).take first) := by
    rw [nodes, Function.update_of_ne different, Function.update_self]
  have owned : (moved.node holder).body?.isSome := by
    rw [node_holder]
    simpa using above
  have split : moved.children holder = (tree.children holder).take first ++ [] := by
    rw [children_eq, node_holder, Node.statements_holding above, List.append_nil]
  have placed := node_insert owned split block
  rw [List.length_take_of_le inside] at placed
  refine ⟨?_, fun id => ?_⟩
  · rw [placed, node_holder, Node.holding_holding, nodes, Function.update_comm different,
      Function.update_idem]
  · rw [parent?_insert owned (by rw [size, sized]; exact there), Function.update_apply, links]

variable (sound : tree.IsSound catalog)

include unplaced sound

theorem children_wrapped : (tree.wrapped holder first block).children = Function.update
    (Function.update tree.children block ((tree.children holder).drop first))
    holder ((tree.children holder).take first ++ [block]) := by
  have nodes := (forest.wrap_spec inside bare owns above different sound.sized unplaced.inside).1
  funext id
  rw [children_eq, nodes, Function.update_apply, Function.update_apply, Function.update_apply,
    Function.update_apply]
  split
  · rw [Node.statements_holding above]
  · split
    · rw [Node.statements_holding owns]
    · rfl

/-- Chains through the block came from the body that it stands in. -/
theorem holds_wrapped_cases {upper lower : NodeId}
    (held : (tree.wrapped holder first block).Holds upper lower) :
    upper = holder ∧ lower = block ∨ upper = block ∧ tree.Holds holder lower ∨
      upper ≠ block ∧ lower ≠ block ∧ tree.Holds upper lower := by
  rw [Holds, forest.children_wrapped inside unplaced bare owns above different sound,
    Function.update_apply] at held
  split at held
  · rename_i here
    rcases List.mem_append.mp held with kept | new
    · have former := List.mem_of_mem_take kept
      exact .inr (.inr ⟨here ▸ different, fun same => unplaced.free holder (same ▸ former),
        here ▸ former⟩)
    · exact .inl ⟨here, List.mem_singleton.mp new⟩
  · rw [Function.update_apply] at held
    split at held
    · rename_i here
      exact .inr (.inl ⟨here, List.mem_of_mem_drop held⟩)
    · rename_i other
      exact .inr (.inr ⟨other, fun same => unplaced.free upper (same ▸ held), held⟩)

/-- Statements that move into the block go on standing below the body that held them. -/
theorem transGen_wrapped {upper lower : NodeId} (held : tree.Holds upper lower) :
    Relation.TransGen (tree.wrapped holder first block).Holds upper lower := by
  have children := forest.children_wrapped inside unplaced bare owns above different sound
  have wrapping : (tree.wrapped holder first block).Holds holder block := by
    rw [Holds, children, Function.update_self]
    exact List.mem_append_right _ (List.mem_singleton_self _)
  by_cases here : upper = holder
  · subst here
    rw [Holds, ← List.take_append_drop first (tree.children upper)] at held
    rcases List.mem_append.mp held with front | back
    · refine .single ?_
      rw [Holds, children, Function.update_self]
      exact List.mem_append_left _ front
    · refine .tail (.single wrapping) ?_
      rw [Holds, children, Function.update_of_ne (Ne.symm different), Function.update_self]
      exact back
  · have other : upper ≠ block := by
      rintro rfl
      simp [Holds, bare] at held
    refine .single ?_
    rw [Holds, children, Function.update_of_ne here, Function.update_of_ne other]
    exact held

theorem hangs_wrapped {id : NodeId} (hangs : tree.Hangs id) :
    (tree.wrapped holder first block).Hangs id := by
  induction hangs with
  | refl => exact .refl
  | tail _ held induction =>
      exact induction.trans (forest.transGen_wrapped inside unplaced bare owns above different sound
        held).to_reflTransGen

/-- Statements are linked to the body that they have moved into. -/
theorem linked_wrapped {upper lower : NodeId}
    (held : lower ∈ (tree.wrapped holder first block).children upper) :
    (tree.wrapped holder first block).parent? lower = some upper := by
  have links := (forest.wrap_spec inside bare owns above different sound.sized unplaced.inside).2
  have free : ∀ {lower holder}, tree.Holds holder lower → lower ≠ block :=
    fun former same => unplaced.free _ (same ▸ former)
  rw [forest.children_wrapped inside unplaced bare owns above different sound,
    Function.update_apply] at held
  rw [links]
  split at held
  · rename_i here
    rcases List.mem_append.mp held with front | new
    · rw [if_neg (free (List.mem_of_mem_take front)), if_neg (forest.disjoint_drop front),
        forest.linked (List.mem_of_mem_take front), here]
    · rw [if_pos (List.mem_singleton.mp new), here]
  · rename_i other
    rw [Function.update_apply] at held
    split at held
    · rename_i here
      rw [if_neg (free (List.mem_of_mem_drop held)), if_pos held, here]
    · have stays : lower ∉ (tree.children holder).drop first := fun listed =>
        other (forest.holder_unique held (List.mem_of_mem_drop listed))
      rw [if_neg (free held), if_neg stays, forest.linked held]

theorem nodup_wrapped (upper : NodeId) : ((tree.wrapped holder first block).children upper).Nodup := by
  rw [forest.children_wrapped inside unplaced bare owns above different sound, Function.update_apply]
  split
  · rw [List.nodup_append_comm]
    refine List.nodup_cons.mpr ⟨fun listed => unplaced.free holder (List.mem_of_mem_take listed), ?_⟩
    exact (forest.once holder).sublist (List.take_sublist _ _)
  · rw [Function.update_apply]
    split
    · exact (forest.once holder).sublist (List.drop_sublist _ _)
    · exact forest.once upper

/-- A chain that does not begin at the block was there before, except for its detour through the
block. -/
theorem chain_wrapped {id last : NodeId} (start : id ≠ block)
    (chain : Relation.TransGen (tree.wrapped holder first block).Holds id last) :
    (last ≠ block → Relation.TransGen tree.Holds id last) ∧
      (last = block → Relation.ReflTransGen tree.Holds id holder) := by
  have edges : ∀ {upper lower}, (tree.wrapped holder first block).Holds upper lower → _ :=
    fun held => forest.holds_wrapped_cases inside unplaced bare owns above different sound held
  refine transGen_of_detour different (fun off behind held => ?_) (fun held => ?_)
    (fun behind held => ?_) start chain
  · rcases edges held with ⟨_, here⟩ | ⟨here, _⟩ | ⟨_, _, former⟩
    · exact absurd here behind
    · exact absurd here off
    · exact .single former
  · rcases edges held with ⟨here, _⟩ | ⟨_, former⟩ | ⟨_, apart, _⟩
    · exact here
    · exact absurd former (unplaced.free _)
    · exact absurd rfl apart
  · rcases edges held with ⟨_, here⟩ | ⟨_, former⟩ | ⟨off, _, _⟩
    · exact absurd here behind
    · exact .single former
    · exact absurd rfl off

theorem wrap : (tree.wrapped holder first block).IsForest := by
  have edges : ∀ {upper lower}, (tree.wrapped holder first block).Holds upper lower → _ :=
    fun held => forest.holds_wrapped_cases inside unplaced bare owns above different sound held
  have falls : ∀ {id last}, id ≠ block →
      Relation.TransGen (tree.wrapped holder first block).Holds id last → _ :=
    fun start chain => forest.chain_wrapped inside unplaced bare owns above different sound start chain
  have rearranges : Rearranges _ tree (tree.wrapped holder first block) :=
    (Rearranges.move _ _ _).trans (.insert _ _ _ _)
  refine forest.of_rearranges rearranges
    (forest.linked_wrapped inside unplaced bare owns above different sound)
    (forest.nodup_wrapped inside unplaced bare owns above different sound)
    (fun id circle => ?_) fun upper held => ?_
  · by_cases here : id = block
    · subst here
      obtain ⟨next, held, rest⟩ := Relation.TransGen.head'_iff.mp circle
      have apart : next ≠ id := by
        rcases edges held with ⟨same, _⟩ | ⟨_, former⟩ | ⟨off, _, _⟩
        · exact absurd same (Ne.symm different)
        · exact fun same => unplaced.free holder (same ▸ former)
        · exact absurd rfl off
      exact forest.acyclic next ((falls apart (.tail' rest held)).1 apart)
    · exact forest.acyclic id ((falls here circle).1 here)
  · rcases edges held with ⟨_, same⟩ | ⟨_, former⟩ | ⟨_, _, former⟩
    · exact unplaced.deep same.symm
    · exact forest.top holder former
    · exact forest.top upper former

end Wrapping

end IsForest

section Edits

variable {catalog : ActionCatalog} {before after : ScriptTree} {id : NodeId}

theorem Hangs.mono (hangs : before.Hangs id) (kept : ∀ {upper lower},
    before.Holds upper lower → after.Holds upper lower) : after.Hangs id :=
  Relation.ReflTransGen.mono (fun _ _ held => kept held) _ _ hangs

theorem Hangs.add (hangs : before.Hangs id) (node : Node) : (before.add node).1.Hangs id := by
  refine hangs.mono fun {upper lower} held => ?_
  rw [Holds, children_eq, node_add_of_lt node (lt_of_mem_children held)]
  exact held

/-- A declaration or a change by one, which may be taken out. -/
def IsLight (tree : ScriptTree) (id : NodeId) : Prop :=
  tree.IsDeclaration id ∨ tree.IsStep id

theorem IsLight.body? {tree : ScriptTree} (light : tree.IsLight id) : (tree.node id).body? = none := by
  rcases light with ⟨_, _, _, _, here⟩ | ⟨_, _, _, _, _, here, _⟩ <;> rw [here] <;> rfl

theorem IsLight.bare {tree : ScriptTree} (light : tree.IsLight id) : tree.children id = [] := by
  rw [children_eq, Node.statements_eq_nil light.body?]

theorem children_modify {tree : ScriptTree} {change : Node → Node}
    (statements : (change (tree.node id)).statements = (tree.node id).statements) (other : NodeId) :
    (tree.modify id change).children other = tree.children other := by
  rw [children_eq, children_eq]
  rcases node_modify_cases tree id other change with kept | ⟨rfl, changed⟩
  · rw [kept]
  · rw [changed, statements]

/-- A chain from a statement without statements ends there. -/
theorem eq_of_chain {tree : ScriptTree} {first last : NodeId} (bare : tree.children first = [])
    (chain : Relation.ReflTransGen tree.Holds first last) : first = last := by
  rcases chain.cases_head with same | ⟨next, held, _⟩
  · exact same
  · simp [Holds, bare] at held

/-- Every edit keeps statements in their places, and takes out light ones only. -/
theorem Edit.isForest (edit : Edit catalog before after) (sound : before.IsSound catalog)
    (forest : before.IsForest) : after.IsForest := by
  cases edit with
  | add values plain bare =>
      rcases bare with ⟨empty, open_ended⟩ | ⟨closure, original, rfl⟩
      · exact forest.add sound (fun operand used =>
          ⟨(values operand used).inside, (values operand used).expression⟩) empty open_ended
      · rw [forest.plain original] at closure
        cases closure
  | vars edit => exact ⟨forest.linked, forest.once, forest.acyclic, forest.top, forest.ordered,
      forest.plain⟩
  | @fill id change outline statements operands =>
      refine forest.of_same (children_modify statements) (fun _ => rfl)
        (fun {other operand} expression used => ?_) fun other => ?_
      · rcases node_modify_cases before id other change with kept | ⟨rfl, changed⟩
        · rw [kept] at expression used
          exact forest.ordered expression used
        · rw [changed] at used
          rw [changed, Node.isExpression_congr outline] at expression
          rcases operands operand used with former | ⟨_, statement⟩
          · exact forest.ordered expression former
          · rw [statement] at expression
            cases expression
      · rcases node_modify_cases before id other change with kept | ⟨rfl, changed⟩
        · rw [kept]
          exact forest.plain other
        · rw [changed, Node.isClosure_congr outline]
          exact forest.plain other
  | link user value =>
      refine forest.of_same (fun _ => rfl) (fun {holder child} held => ?_) forest.ordered forest.plain
      have other : child ≠ _ := fun same => by
        have statement := (sound.children held).2
        rw [same, value.expression] at statement
        cases statement
      rw [parent?_setParent (sound.sized.symm ▸ value.inside), Function.update_of_ne other]
  | hold unplaced bare owns above different =>
      exact forest.append sound owns unplaced fun chain => different (eq_of_chain bare chain).symm
  | detach light => exact forest.detach _
  | replace declares unplaced bare => exact forest.replace sound unplaced bare
  | wrap inside unplaced bare owns above different =>
      exact forest.wrap inside unplaced bare owns above different sound

theorem Edit.hangs (edit : Edit catalog before after) (sound : before.IsSound catalog)
    (forest : before.IsForest) (hangs : before.Hangs id) : before.IsLight id ∨ after.Hangs id := by
  cases edit with
  | add values plain bare => exact .inr (hangs.add _)
  | vars edit => exact .inr (hangs.mono fun held => held)
  | fill outline statements operands =>
      refine .inr (hangs.mono fun {upper lower} held => ?_)
      rw [Holds, children_modify statements]
      exact held
  | link user value => exact .inr (hangs.mono fun held => held)
  | hold unplaced bare owns above different =>
      exact .inr (hangs.mono fun held => (IsForest.holds_append owns).mpr (.inl held))
  | detach light =>
      rcases forest.hangs_detach (IsLight.bare light) hangs with rfl | hangs
      · exact .inl light
      · exact .inr hangs
  | replace declares unplaced bare =>
      rcases forest.hangs_replace (IsLight.bare (.inl declares)) hangs with rfl | hangs
      · exact .inl (.inl declares)
      · exact .inr hangs
  | wrap inside unplaced bare owns above different =>
      exact .inr (forest.hangs_wrapped inside unplaced bare owns above different sound hangs)

end Edits

end ScriptTree
end NwScript
