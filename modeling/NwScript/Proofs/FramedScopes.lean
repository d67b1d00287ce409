import NwScript.Proofs.ControlOrder
import NwScript.Proofs.ScopeMoves

/-!
# Frames of open scopes

Each open node is the last statement of the open node around it, unless it is a case of a switch.  So an
else branch that is opened when a branch is closed stands directly behind it, and a jump that is written
stands within everything that is open.  A loop without a condition is open for as long as it has none.
-/

namespace NwScript

namespace ScriptTree

/-- An open node stands in the open node around it, and nothing stands behind it unless it is a case. -/
structure Nests (tree : ScriptTree) (inner outer : NodeId) : Prop where
  /-- It stands there. -/
  held : inner ∈ tree.children outer
  /-- It was made later. -/
  newer : outer < inner
  /-- It is a case or the last statement. -/
  last : (tree.node inner).isCase ∨ (tree.children outer).getLast? = some inner

theorem Nests.keep {before after : ScriptTree} {inner outer : NodeId} (nests : before.Nests inner outer)
    (outline : (after.node inner).outline = (before.node inner).outline)
    (children : after.children outer = before.children outer) : after.Nests inner outer where
  held := children ▸ nests.held
  newer := nests.newer
  last := by
    rw [Node.congr_outline Node.isCase_outline outline, children]
    exact nests.last

end ScriptTree

namespace Recovery

open ScriptTree

/-- The open scopes frame the control flow of the tree. -/
structure IsFramed (time : Nat) (recovery : Recovery) : Prop where
  /-- The control flow is in order. -/
  tree : recovery.tree.IsOrdered
  /-- Open nodes own statements. -/
  owns : ∀ id ∈ recovery.openNodes, (recovery.tree.node id).body?.isSome
  /-- Each stands in the one around it. -/
  chain : recovery.openNodes.IsChain recovery.tree.Nests
  /-- The cases of open switches were made after the switches. -/
  cases : ∀ id ∈ recovery.openNodes, ∀ child ∈ recovery.tree.children id,
    (recovery.tree.node child).isCase → id < child
  /-- Loops without a condition are open. -/
  loops : ∀ {holder child : NodeId}, child ∈ recovery.tree.children holder →
    isOpenLoop (recovery.tree.node child) → child ∈ recovery.openNodes
  /-- What is open ends at some position. -/
  bounded : ∀ id, (recovery.tree.node id).IsBounded
  /-- Nested blocks have ended. -/
  blocks : ∀ {holder child : NodeId}, child ∈ recovery.tree.children holder →
    (recovery.tree.node child).isBlock → recovery.limit child ≤ time
  /-- A dispatch jumps to positions. -/
  dispatch : ∀ dispatch, recovery.dispatch = some dispatch →
    ∀ entry ∈ dispatch.cases, entry.2 ≤ lastPosition

/-- What a node in a chain is related to through its neighbours. -/
theorem reflTransGen_of_isChain {α : Type} {relation : α → α → Prop} {first last : α} {rest : List α}
    (chain : (first :: rest).IsChain relation) (listed : last ∈ first :: rest) :
    Relation.ReflTransGen relation first last := by
  induction rest generalizing first with
  | nil =>
      rw [List.mem_singleton.mp listed]
  | cons second rest induction =>
      obtain ⟨edge, chain⟩ := List.isChain_cons_cons.mp chain
      rcases List.mem_cons.mp listed with rfl | behind
      · exact .refl
      · exact .head edge (induction chain behind)

theorem isOpenLoop_holding (children : List NodeId) (node : Node) :
    isOpenLoop (node.holding children) = isOpenLoop node := by
  cases node with
  | whileLoop condition | doLoop condition => cases condition <;> rfl
  | _ => rfl

theorem isBounded_congr {node other : Node} (same : node.shape = other.shape)
    (bounded : other.IsBounded) : node.IsBounded := by
  have bodies := congrArg Node.body? (Node.outline_congr same)
  rw [Node.body?_outline, Node.body?_outline] at bodies
  refine ⟨fun body owns => ?_, fun limit skips => ?_⟩
  · rw [owns] at bodies
    obtain ⟨former, there, emptied⟩ := Option.map_eq_some_iff.mp bodies.symm
    have limits : former.limit = body.limit := congrArg (·.limit) emptied
    exact limits ▸ bounded.limit former there
  · obtain ⟨condition, body, rfl⟩ := exists_of_skip? skips
    refine bounded.skip limit ?_
    cases other with
    | branch => exact (Node.branch.inj same).2.2.symm
    | _ => cases same

namespace IsFramed

variable {time : Nat} {before after : Recovery}

section Open

variable (framed : before.IsFramed time)

include framed

/-- What holds at a time holds later. -/
theorem later {last : Nat} (order : time ≤ last) : before.IsFramed last :=
  { framed with blocks := fun held isBlock => Nat.le_trans (framed.blocks held isBlock) order }

theorem lt_size {id : NodeId} (listed : id ∈ before.openNodes) : id < before.tree.size :=
  lt_of_body? (framed.owns id listed)

theorem reaches_current {id : NodeId} (listed : id ∈ before.openNodes) :
    Relation.ReflTransGen before.tree.Nests before.current id := by
  have chain := framed.chain
  rw [before.openNodes_eq] at chain listed
  exact reflTransGen_of_isChain chain listed

/-- The innermost open node was made last. -/
theorem le_current {id : NodeId} (listed : id ∈ before.openNodes) : id ≤ before.current := by
  have path := framed.reaches_current listed
  clear listed
  induction path with
  | refl => exact Nat.le_refl _
  | tail _ nests induction => exact Nat.le_trans (Nat.le_of_lt nests.newer) induction

/-- What is around another open node is not the innermost one. -/
theorem ne_current {inner outer : NodeId} (listed : inner ∈ before.openNodes)
    (nests : before.tree.Nests inner outer) : outer ≠ before.current :=
  Nat.ne_of_lt (Nat.lt_of_lt_of_le nests.newer (framed.le_current listed))

/-- The innermost open node stands below each open one. -/
theorem holds_current {id : NodeId} (listed : id ∈ before.openNodes) :
    Relation.ReflTransGen before.tree.Holds id before.current := by
  have path := framed.reaches_current listed
  clear listed
  induction path with
  | refl => exact .refl
  | tail _ nests induction => exact .head nests.held induction

theorem owns_current : (before.tree.node before.current).body?.isSome :=
  framed.owns _ before.current_mem_openNodes

end Open

/-- Nodes are completed, and nodes that no body holds are added. -/
theorem complete (framed : before.IsFramed time) (scopes : after.scopes = before.scopes)
    (dispatch : after.dispatch = before.dispatch) (completes : before.tree.Completes after.tree)
    (bounded : ∀ id, (after.tree.node id).IsBounded)
    (closed : ∀ id < before.tree.size, isOpenLoop (after.tree.node id) →
      isOpenLoop (before.tree.node id)) : after.IsFramed time := by
  have nodes : after.openNodes = before.openNodes := by rw [openNodes, scopes, openNodes]
  have outline : ∀ id ∈ before.openNodes, _ := fun id listed =>
    completes.outline id (framed.lt_size listed)
  have source : ∀ {holder child}, child ∈ after.tree.children holder →
      child < before.tree.size ∧ ∃ original, child ∈ before.tree.children original := by
    intro holder child held
    rcases completes.source holder with empty | ⟨original, _, same, _⟩
    · rw [empty] at held
      cases held
    · rw [same] at held
      exact ⟨framed.tree.inside held, original, held⟩
  refine ⟨completes.isOrdered framed.tree, fun id listed => ?_, ?_, fun id listed child held isCase => ?_,
    fun {holder child} held opened => ?_, bounded, fun {holder child} held isBlock => ?_,
    dispatch ▸ framed.dispatch⟩
  · rw [nodes] at listed
    rw [Node.owns_congr (outline id listed)]
    exact framed.owns id listed
  · rw [nodes]
    exact framed.chain.imp_of_mem_imp fun inner outer one other nests =>
      nests.keep (outline inner one) (completes.children outer (framed.lt_size other))
  · rw [nodes] at listed
    rw [completes.children id (framed.lt_size listed)] at held
    rw [Node.congr_outline Node.isCase_outline (completes.outline child (framed.tree.inside held))] at isCase
    exact framed.cases id listed child held isCase
  · obtain ⟨inside, original, there⟩ := source held
    rw [nodes]
    exact framed.loops there (closed child inside opened)
  · obtain ⟨inside, original, there⟩ := source held
    rw [Node.congr_outline Node.isBlock_outline (completes.outline child inside)] at isBlock
    rw [limit_congr (completes.outline child inside)]
    exact framed.blocks there isBlock

/-- In one body some statements give way to others, which are no loops and no blocks. -/
theorem exchange {host : NodeId} {left old new right : List NodeId} (framed : before.IsFramed time)
    (scopes : after.scopes = before.scopes) (dispatch : after.dispatch = before.dispatch)
    (exchanges : Exchanges host left old new right before.tree after.tree)
    (ordered : after.tree.IsOrdered)
    (nodes : ∀ id, ∃ children, after.tree.node id = (before.tree.node id).holding children)
    (loose : ∀ id ∈ old, (before.tree.node id).isLoose)
    (plain : ∀ id ∈ new, isOpenLoop (before.tree.node id) = false ∧
      (before.tree.node id).isBlock = false ∧
      ((before.tree.node id).isCase → host ∉ before.openNodes))
    (place : old ≠ [] ∨ host = before.current ∨ host ∉ before.openNodes) : after.IsFramed time := by
  have same_open : after.openNodes = before.openNodes := by rw [openNodes, scopes, openNodes]
  have shape : ∀ id, (after.tree.node id).shape = (before.tree.node id).shape := fun id => by
    obtain ⟨children, same⟩ := nodes id
    rw [same, Node.shape_holding]
  have outline := fun id => Node.outline_congr (shape id)
  have loop : ∀ id, isOpenLoop (after.tree.node id) = isOpenLoop (before.tree.node id) := fun id => by
    obtain ⟨children, same⟩ := nodes id
    rw [same, isOpenLoop_holding]
  refine ⟨ordered, fun id listed => ?_, ?_, fun id listed child held isCase => ?_,
    fun {holder child} held opened => ?_, fun id => isBounded_congr (shape id) (framed.bounded id),
    fun {holder child} held isBlock => ?_, dispatch ▸ framed.dispatch⟩
  · rw [same_open] at listed
    rw [Node.owns_congr (outline id)]
    exact framed.owns id listed
  · rw [same_open]
    refine framed.chain.imp_of_mem_imp fun inner outer one other nests => ?_
    have kept : inner ∉ old := fun listed => by
      have owns := framed.owns inner one
      rw [Node.body?_of_isLoose (loose inner listed)] at owns
      cases owns
    refine ⟨exchanges.holds nests.held kept, nests.newer, ?_⟩
    rw [Node.congr_outline Node.isCase_outline (outline inner)]
    refine nests.last.imp_right fun last => ?_
    by_cases here : outer = host
    · subst here
      rw [exchanges.held] at last
      rw [exchanges.children_host]
      cases right with
      | cons first rest =>
          rw [List.getLast?_append_of_ne_nil _ (List.cons_ne_nil _ _)] at last ⊢
          exact last
      | nil =>
          rw [List.append_nil] at last
          rcases place with taken | same | apart
          · rw [List.getLast?_append_of_ne_nil _ taken] at last
            exact absurd (List.mem_of_getLast? last) kept
          · exact absurd same (framed.ne_current one nests)
          · exact absurd other apart
    · rw [exchanges.children_of_ne here]
      exact last
  · rw [same_open] at listed
    rw [Node.congr_outline Node.isCase_outline (outline child)] at isCase
    rcases exchanges.child_cases held with ⟨rfl, new⟩ | former
    · exact absurd listed ((plain child new).2.2 isCase)
    · exact framed.cases id listed child former isCase
  · rw [loop] at opened
    rw [same_open]
    rcases exchanges.child_cases held with ⟨rfl, new⟩ | former
    · cases (plain child new).1.symm.trans opened
    · exact framed.loops former opened
  · rw [Node.congr_outline Node.isBlock_outline (outline child)] at isBlock
    rw [limit_congr (outline child)]
    rcases exchanges.child_cases held with ⟨rfl, new⟩ | former
    · cases (plain child new).2.1.symm.trans isBlock
    · exact framed.blocks former isBlock

/-- A node without statements is no loop, no block and no case. -/
theorem plain_of_bare {node : Node} (bare : node.body? = none) :
    isOpenLoop node = false ∧ node.isBlock = false ∧ node.isCase = false := by
  cases node <;> first | exact ⟨rfl, rfl, rfl⟩ | cases bare

/-- A node is attached to the innermost open one and opened. -/
theorem attachEnter {id : NodeId} {height : Nat} (framed : before.IsFramed time)
    (inside : id < before.tree.size) (newer : before.current < id)
    (construct : (before.tree.node id).isConstruct)
    (behind : (before.tree.node id).isOtherwise →
      ∃ last ∈ (before.tree.children before.current).getLast?, (before.tree.node last).isBranch)
    (cases : ∀ child ∈ before.tree.children id, (before.tree.node child).isCase → id < child) :
    IsFramed time { before with
      tree := before.tree.append before.current id
      scopes := ⟨id, height⟩ :: before.scopes } := by
  have owns : (before.tree.node id).body?.isSome := by
    cases here : before.tree.node id <;> first | rfl | simp [here, Node.isConstruct] at construct
  have kinds : (before.tree.node id).isCase = false ∧ (before.tree.node id).isBlock = false := by
    cases here : before.tree.node id <;> first | exact ⟨rfl, rfl⟩ | simp [here, Node.isConstruct] at construct
  have exchanges := Exchanges.append framed.owns_current id
  have rearranges := Rearranges.append before.tree before.current id
  have ordered := framed.tree.append framed.owns_current inside behind
    (fun isCase => by cases kinds.1.symm.trans isCase)
    fun needs => by cases (Node.enclosure?_eq_none_of_owns owns).symm.trans needs
  generalize before.tree.append before.current id = tree at exchanges rearranges ordered ⊢
  have outline := rearranges.outline
  have loop : ∀ id, isOpenLoop (tree.node id) = isOpenLoop (before.tree.node id) := fun id => by
    obtain ⟨children, same⟩ := rearranges.node id
    rw [same, isOpenLoop_holding]
  have opened : (openNodes { before with tree, scopes := ⟨id, height⟩ :: before.scopes }) =
      id :: before.openNodes := rfl
  refine ⟨ordered, ?_, ?_, ?_, fun {holder child} held isLoop => ?_, fun other => ?_,
    fun {holder child} held isBlock => ?_, framed.dispatch⟩
  · rw [opened]
    refine List.forall_mem_cons.mpr ⟨(Node.owns_congr (outline id)).trans owns, fun other listed => ?_⟩
    exact (Node.owns_congr (outline other)).trans (framed.owns other listed)
  · rw [opened, before.openNodes_eq, List.isChain_cons_cons, ← before.openNodes_eq]
    refine ⟨⟨?_, newer, .inr ?_⟩, framed.chain.imp_of_mem_imp fun inner outer one _ nests => ?_⟩
    · rw [exchanges.children_host]
      simp
    · rw [exchanges.children_host]
      simp
    · exact nests.keep (outline inner) (exchanges.children_of_ne (framed.ne_current one nests))
  · rw [opened]
    refine List.forall_mem_cons.mpr ⟨fun child held isCase => ?_, fun other listed child held isCase => ?_⟩
    · rw [Node.congr_outline Node.isCase_outline (outline child)] at isCase
      rw [exchanges.children_of_ne (Nat.ne_of_gt newer)] at held
      exact cases child held isCase
    · rw [Node.congr_outline Node.isCase_outline (outline child)] at isCase
      rcases exchanges.child_cases held with ⟨_, new⟩ | former
      · rw [List.mem_singleton.mp new, kinds.1] at isCase
        cases isCase
      · exact framed.cases other listed child former isCase
  · rw [loop] at isLoop
    rw [opened]
    rcases exchanges.child_cases held with ⟨_, new⟩ | former
    · rw [List.mem_singleton.mp new]
      exact List.mem_cons_self
    · exact List.mem_cons_of_mem _ (framed.loops former isLoop)
  · obtain ⟨children, same⟩ := rearranges.node other
    exact isBounded_congr (same ▸ Node.shape_holding _ _) (framed.bounded other)
  · rw [Node.congr_outline Node.isBlock_outline (outline child)] at isBlock
    rcases exchanges.child_cases held with ⟨_, new⟩ | former
    · rw [List.mem_singleton.mp new, kinds.2] at isBlock
      cases isBlock
    · exact (limit_congr (outline child)).trans_le (framed.blocks former isBlock)

/-- The case of an open switch is opened. -/
theorem enter {scope : Scope} (framed : before.IsFramed time)
    (held : scope.node ∈ before.tree.children before.current)
    (isCase : (before.tree.node scope.node).isCase) :
    IsFramed time { before with scopes := scope :: before.scopes } := by
  have opened : openNodes { before with scopes := scope :: before.scopes } =
      scope.node :: before.openNodes := rfl
  refine ⟨framed.tree, ?_, ?_, ?_, fun held isLoop => List.mem_cons_of_mem _ (framed.loops held isLoop),
    framed.bounded, framed.blocks, framed.dispatch⟩
  · rw [opened]
    refine List.forall_mem_cons.mpr ⟨?_, framed.owns⟩
    cases here : before.tree.node scope.node <;> first | rfl | simp [here, Node.isCase] at isCase
  · rw [opened, before.openNodes_eq, List.isChain_cons_cons, ← before.openNodes_eq]
    refine ⟨⟨held, ?_, .inl isCase⟩, framed.chain⟩
    exact framed.cases _ before.current_mem_openNodes _ held isCase
  · rw [opened]
    refine List.forall_mem_cons.mpr ⟨fun child inner another => ?_, framed.cases⟩
    have switches := framed.tree.cases inner another
    cases here : before.tree.node scope.node <;> simp [here, Node.isCase, Node.isSwitch] at isCase switches

/-- The innermost scope is closed, unless it is a loop without a condition. -/
theorem leave {scope : Scope} {outer : List Scope} (framed : before.IsFramed time)
    (scopes : before.scopes = scope :: outer)
    (closed : isOpenLoop (before.tree.node scope.node) = false) :
    IsFramed time { before with scopes := outer } ∧
      before.tree.Nests scope.node (current { before with scopes := outer }) := by
  have opened : before.openNodes = scope.node :: openNodes { before with scopes := outer } := by
    rw [openNodes, scopes]
    rfl
  have chain := framed.chain
  rw [opened] at chain
  have within : ∀ {id}, id ∈ openNodes { before with scopes := outer } → id ∈ before.openNodes := by
    intro id listed
    rw [opened]
    exact List.mem_cons_of_mem _ listed
  refine ⟨⟨framed.tree, fun id listed => framed.owns id (within listed), chain.tail,
    fun id listed => framed.cases id (within listed), fun {holder child} held isLoop => ?_,
    framed.bounded, framed.blocks, framed.dispatch⟩, ?_⟩
  · have listed := framed.loops held isLoop
    rw [opened] at listed
    refine (List.mem_cons.mp listed).resolve_left ?_
    rintro rfl
    cases closed.symm.trans isLoop
  · rw [openNodes_eq, List.isChain_cons_cons] at chain
    exact chain.1

/-- The last statements of the innermost open node are moved into a block. -/
theorem wrap {catalog : ActionCatalog} {block : NodeId} {first : Nat} (framed : before.IsFramed time)
    (forest : before.tree.IsForest) (sound : before.tree.IsSound catalog)
    (inside : first ≤ (before.tree.children before.current).length)
    (unplaced : before.tree.IsUnplaced block) (bare : before.tree.children block = [])
    (isBlock : (before.tree.node block).isBlock) (apart : block ∉ before.openNodes)
    (ended : before.limit block ≤ time)
    (loose : ∀ id ∈ ((before.tree.children before.current).drop first).head?,
      (before.tree.node id).isLoose) :
    IsFramed time { before with tree := before.tree.wrapped before.current first block } := by
  have owns := Node.owns_of_isBlock isBlock
  have different : before.current ≠ block := fun same =>
    apart (same ▸ before.current_mem_openNodes)
  have ordered := framed.tree.wrap forest sound inside unplaced bare owns framed.owns_current different
    isBlock loose
  have children := forest.children_wrapped inside unplaced bare owns framed.owns_current different sound
  have edges : ∀ {upper lower}, (before.tree.wrapped before.current first block).Holds upper lower → _ :=
    fun held => forest.holds_wrapped_cases inside unplaced bare owns framed.owns_current different sound
      held
  have rearranges : Rearranges _ before.tree (before.tree.wrapped before.current first block) :=
    (Rearranges.move _ _ _).trans (.insert _ _ _ _)
  generalize before.tree.wrapped before.current first block = tree at *
  have outline := rearranges.outline
  have former : ∀ {holder child}, child ∈ tree.children holder → child = block ∨
      ∃ place, child ∈ before.tree.children place := by
    intro holder child held
    rcases edges held with ⟨_, same⟩ | ⟨_, there⟩ | ⟨_, _, there⟩
    · exact .inl same
    · exact .inr ⟨_, there⟩
    · exact .inr ⟨_, there⟩
  refine ⟨ordered, fun id listed => ?_, framed.chain.imp_of_mem_imp fun inner outer one other nests => ?_,
    fun id listed child held isCase => ?_, fun {holder child} held isLoop => ?_, fun id => ?_,
    fun {holder child} held nested => ?_, framed.dispatch⟩
  · exact (Node.owns_congr (outline id)).trans (framed.owns id listed)
  · refine nests.keep (outline inner) ?_
    show tree.children outer = _
    rw [children, Function.update_of_ne (framed.ne_current one nests), Function.update_of_ne]
    rintro rfl
    exact apart other
  · rw [Node.congr_outline Node.isCase_outline (outline child)] at isCase
    rcases edges held with ⟨_, rfl⟩ | ⟨rfl, _⟩ | ⟨_, _, there⟩
    · cases (Node.isCase_of_isFree (Node.isFree_of_isPlain
        (Node.isPlain_of_isBlock isBlock))).symm.trans isCase
    · exact absurd listed apart
    · exact framed.cases id listed child there isCase
  · obtain ⟨statements, same⟩ := rearranges.node child
    rw [same, isOpenLoop_holding] at isLoop
    rcases former held with rfl | ⟨place, there⟩
    · cases here : before.tree.node child <;> simp [here, Node.isBlock, isOpenLoop] at isBlock isLoop
    · exact framed.loops there isLoop
  · obtain ⟨statements, same⟩ := rearranges.node id
    exact isBounded_congr (same ▸ Node.shape_holding _ _) (framed.bounded id)
  · rw [Node.congr_outline Node.isBlock_outline (outline child)] at nested
    refine (limit_congr (outline child)).trans_le ?_
    rcases former held with rfl | ⟨place, there⟩
    · exact ended
    · exact framed.blocks there nested

/-- A branch gets the end of its else branch. -/
theorem setSkip {id : NodeId} {condition : Option NodeId} {body : Body} {target : Nat}
    (framed : before.IsFramed time) (here : before.tree.node id = .branch condition body none)
    (word : target ≤ lastPosition) : IsFramed time { before with
      tree := before.tree.modify id fun _ => .branch condition body (some target) } := by
  have nodes := fun other => node_modify_cases before.tree id other fun _ =>
    .branch condition body (some target)
  refine framed.complete rfl rfl (.modify ?_ ?_) (fun other => ?_) fun other _ isLoop => ?_
  · rw [here]
    rfl
  · rw [here]
    rfl
  · rcases nodes other with same | ⟨rfl, changed⟩
    · exact same ▸ framed.bounded other
    · show ((before.tree.modify other _).node other).IsBounded
      rw [changed]
      refine ⟨fun found owns => (framed.bounded other).limit found ?_, ?_⟩
      · rw [here]
        exact owns
      · rintro _ ⟨⟩
        exact word
  · rcases nodes other with same | ⟨rfl, changed⟩
    · exact same ▸ isLoop
    · rw [changed] at isLoop
      cases isLoop

/-- Quiet changes keep the frames. -/
theorem quiet (framed : before.IsFramed time) (quiet : before.Quiet after) : after.IsFramed time := by
  cases quiet with
  | note nodes scopes dispatch =>
      have node : ∀ id, after.tree.node id = before.tree.node id := fun id => by
        rw [ScriptTree.node, ScriptTree.node, nodes]
      exact framed.complete scopes dispatch (.of_nodes nodes) (fun id => node id ▸ framed.bounded id)
        fun id _ isLoop => node id ▸ isLoop
  | @add node fits =>
      refine framed.complete rfl rfl (.add (fits.imp_left (·.empty))) (fun id => ?_)
        fun id inside isLoop => ?_
      · show ((before.tree.add node).1.node id).IsBounded
        rw [node_add, Function.update_apply]
        split
        · rcases fits with blank | ⟨original, rfl⟩
          · exact blank.toIsBounded
          · exact framed.bounded original
        · exact framed.bounded id
      · rwa [node_add_of_lt node inside] at isLoop
  | @fill id change shape statements closed =>
      refine framed.complete rfl rfl (.modify (Node.outline_congr shape) statements) (fun other => ?_)
        fun other _ isLoop => ?_
      · rcases node_modify_cases before.tree id other change with same | ⟨rfl, changed⟩
        · exact same ▸ framed.bounded other
        · exact changed ▸ isBounded_congr shape (framed.bounded other)
      · rcases node_modify_cases before.tree id other change with same | ⟨rfl, changed⟩
        · exact same ▸ isLoop
        · exact closed (changed ▸ isLoop)
  | @emit statement inside bare admits =>
      have plain := plain_of_bare bare
      have ordered := framed.tree.append framed.owns_current inside
        (fun follows => by cases (Node.isOtherwise_of_isFree
          (Node.isFree_of_isPlain (Node.isPlain_of_bare bare))).symm.trans follows)
        (fun isCase => by cases plain.2.2.symm.trans isCase) fun needs => by
          obtain ⟨scope, listed, passes⟩ := admits _ needs
          exact ⟨scope.node, passes, framed.holds_current (List.mem_append_left _
            (List.mem_map_of_mem listed))⟩
      refine framed.exchange rfl rfl (.append framed.owns_current statement) ordered
        (Rearranges.append before.tree before.current statement).node
        (fun _ listed => absurd listed List.not_mem_nil) (fun id listed => ?_)
        (.inr (.inl rfl))
      obtain rfl := List.mem_singleton.mp listed
      exact ⟨plain.1, plain.2.1, fun isCase => by cases plain.2.2.symm.trans isCase⟩
  | @detach statement loose =>
      have ordered := framed.tree.detach loose
      rcases Exchanges.detach before.tree statement with same | ⟨host, left, right, exchanges⟩
      · rw [same]
        exact framed
      · exact framed.exchange rfl rfl exchanges ordered (Rearranges.detach before.tree statement).node
          (by simpa using loose) (fun _ listed => absurd listed List.not_mem_nil)
          (.inl (List.cons_ne_nil _ _))
  | @replace former latter loose inside fits =>
      have ordered := framed.tree.replace loose inside fits
      have plain := plain_of_bare (Node.body?_of_isLoose fits)
      rcases Exchanges.replace before.tree former latter with same | ⟨host, left, right, exchanges⟩
      · rw [same]
        exact framed
      · refine framed.exchange rfl rfl exchanges ordered
          (Rearranges.replace before.tree former latter).node (by simpa using loose)
          (fun id listed => ?_) (.inl (List.cons_ne_nil _ _))
        obtain rfl := List.mem_singleton.mp listed
        exact ⟨plain.1, plain.2.1, fun isCase => by cases plain.2.2.symm.trans isCase⟩

theorem quietly (framed : before.IsFramed time) (quietly : before.Quietly after) :
    after.IsFramed time := by
  induction quietly with
  | refl => exact framed
  | tail _ step induction => exact induction.quiet step

end IsFramed

end Recovery

end NwScript
