import NwScript.Proofs.KeptScopes
import NwScript.Proofs.LaidOutCode
import NwScript.Proofs.WalkTotal

/-!
# Order of open scopes

A branch, an else branch and a loop are opened within the innermost open node, whose range is compared
with theirs unless it is the body of the subroutine.  Deferred arguments, switches and cases are not
compared with anything.  What is open stays in order as long as the steps of a recovery follow one
another in the order of the instructions.
-/

namespace NwScript

/-- A node whose end is compared with that of the open node around it before it is opened. -/
def Node.isChecked : Node → Bool
  | branch _ _ _ | otherwise _ | whileLoop _ _ | doLoop _ _ => true
  | _ => false

theorem Node.isChecked_outline (node : Node) : node.outline.isChecked = node.isChecked := by
  cases node <;> rfl

theorem Node.isSwitch_outline (node : Node) : node.outline.isSwitch = node.isSwitch := by
  cases node <;> rfl

theorem Node.isConstruct_of_isChecked {node : Node} (checked : node.isChecked) :
    node.isConstruct := by
  cases node <;> first | rfl | cases checked

theorem Node.isConstruct_of_isSwitch {node : Node} (switches : node.isSwitch) :
    node.isConstruct := by
  cases node <;> first | rfl | cases switches

/-- Appending a statement changes no shape. -/
theorem ScriptTree.shape_append (tree : ScriptTree) (parent child other : NodeId) :
    ((tree.append parent child).node other).shape = (tree.node other).shape := by
  obtain ⟨children, same⟩ := (Rearranges.append tree parent child).node other
  rw [same, Node.shape_holding]

/-- Appending a statement brings no other one into a body. -/
theorem ScriptTree.mem_children_append {tree : ScriptTree} {parent other holder child : NodeId}
    (held : child ∈ (tree.append parent other).children holder) :
    child ∈ tree.children holder ∨ child = other := by
  by_cases owns : (tree.node parent).body?.isSome
  · rw [children_eq, node_append_eq owns, Function.update_apply] at held
    split at held
    · rename_i same
      rw [Node.statements_holding owns, ← same] at held
      exact (List.mem_append.mp held).imp_right List.mem_singleton.mp
    · exact .inl held
  · rw [append, if_neg owns] at held
    exact .inl held

/-- Appending a statement to one node changes the statements of no other. -/
theorem ScriptTree.children_append_of_ne {tree : ScriptTree} {parent holder child : NodeId}
    (other : holder ≠ parent) :
    (tree.append parent child).children holder = tree.children holder := by
  rw [children_eq, node_append, if_neg other, ← children_eq]

namespace Recovery

/-- The open nodes, innermost first; the last one is the body of the subroutine. -/
def openNodes (recovery : Recovery) : List NodeId :=
  recovery.scopes.map (·.node) ++ [ScriptTree.root]

/-- The statements of a node lie within those of another one. -/
def Within (recovery : Recovery) (inner outer : NodeId) : Prop :=
  (recovery.range outer).1 ≤ (recovery.range inner).1 ∧ recovery.limit inner ≤ recovery.limit outer

/-- The statements of each open node lie within those of the open node around it. -/
def IsNested (recovery : Recovery) : Prop :=
  recovery.openNodes.IsChain recovery.Within

instance (recovery : Recovery) : DecidableRel recovery.Within := fun inner outer =>
  inferInstanceAs (Decidable ((recovery.range outer).1 ≤ (recovery.range inner).1 ∧
    recovery.limit inner ≤ recovery.limit outer))

instance (recovery : Recovery) : Decidable recovery.IsNested :=
  inferInstanceAs (Decidable (recovery.openNodes.IsChain recovery.Within))

theorem openNodes_eq (recovery : Recovery) :
    recovery.openNodes = recovery.current :: recovery.openNodes.tail := by
  rw [openNodes, current]
  cases recovery.scopes <;> rfl

theorem current_mem_openNodes (recovery : Recovery) : recovery.current ∈ recovery.openNodes := by
  rw [openNodes_eq]
  exact List.mem_cons_self

theorem range_congr {before after : Recovery} {id : NodeId}
    (same : (after.tree.node id).outline = (before.tree.node id).outline) :
    after.range id = before.range id := by
  have bodies := congrArg Node.body? same
  rw [Node.body?_outline, Node.body?_outline] at bodies
  rw [range, range]
  cases here : (after.tree.node id).body? with
  | none =>
      cases there : (before.tree.node id).body? with
      | none => rfl
      | some body => simp [here, there] at bodies
  | some body =>
      cases there : (before.tree.node id).body? with
      | none => simp [here, there] at bodies
      | some other =>
          rw [here, there] at bodies
          have starts := congrArg Body.start (Option.some.inj bodies)
          have limits := congrArg Body.limit (Option.some.inj bodies)
          exact Prod.ext starts limits

/-- The range of a node of some shape. -/
theorem range_of_shape {recovery : Recovery} {id : NodeId} {node : Node} {body : Body}
    (same : (recovery.tree.node id).shape = node.shape) (owns : node.body? = some body) :
    recovery.range id = (body.start, body.limit) := by
  have bodies := congrArg Node.body? (Node.outline_congr same)
  rw [Node.body?_outline, Node.body?_outline, owns] at bodies
  obtain ⟨found, there, emptied⟩ := Option.map_eq_some_iff.mp bodies
  rw [range, there]
  have starts : found.start = body.start := congrArg (·.start) emptied
  have limits : found.limit = body.limit := congrArg (·.limit) emptied
  exact Prod.ext starts limits

theorem limit_congr {before after : Recovery} {id : NodeId}
    (same : (after.tree.node id).outline = (before.tree.node id).outline) :
    after.limit id = before.limit id :=
  congrArg Prod.snd (range_congr same)

/-- What does not escape ends inside the innermost scope. -/
theorem le_limit_of_fits {before : Recovery} {position : Nat} (fits : ¬before.escapes position)
    (inside : before.scopes ≠ []) : position ≤ before.limit before.current := by
  simpa [escapes, inside] using fits

theorem Keeps.current {before after : Recovery} (keeps : before.Keeps after) : after.current = before.current := by
  rw [Recovery.current, keeps.scopes, ← Recovery.current]

theorem Keeps.range {before after : Recovery} (keeps : before.Keeps after) {id : NodeId} (inside : id < before.tree.size) :
    after.range id = before.range id :=
  range_congr (Node.outline_congr (keeps.tree.shape id inside))

end Recovery

namespace RecoveryInput

/-- The jumps of a subroutine stay inside it. -/
structure IsConfined (input : RecoveryInput) (sub : Nat) : Prop where
  /-- They lead to its instructions. -/
  leads : ∀ command ∈ input.program.body sub, input.program.opcode command ≠ .call →
    ∀ destination, input.table.destination command = .ok (some destination) →
      destination ∈ input.program.body sub
  /-- Those that lead to its instructions are its own. -/
  comes : ∀ command ∈ input.program.body sub, ∀ origins, input.table.origins command = .ok origins →
    ∀ origin ∈ origins, input.program.opcode origin = .jump → origin ∈ input.program.body sub

/-- A construct begins within the open node around it.  A branch, an else branch and a loop end
within it as well; the end of the subroutine is no limit for jumps that leave it. -/
structure Respects (input : RecoveryInput) (sub : Nat) (recovery : Recovery) (inner outer : NodeId) :
    Prop where
  /-- It does not begin before the node around it. -/
  start : (recovery.tree.node inner).isConstruct →
    (recovery.range outer).1 ≤ (recovery.range inner).1
  /-- It does not end behind the node around it. -/
  limit : (recovery.tree.node inner).isChecked → (outer = ScriptTree.root → input.IsConfined sub) →
    recovery.limit inner ≤ recovery.limit outer

/-- What is open respects what is around it as long as the tree does not change. -/
theorem Respects.congr {input : RecoveryInput} {sub : Nat} {before after : Recovery}
    {inner outer : NodeId} (respects : input.Respects sub before inner outer)
    (same : after.tree = before.tree) : input.Respects sub after inner outer := by
  have limits : ∀ id, after.limit id = before.limit id := fun id => by
    rw [Recovery.limit, Recovery.range, same, ← Recovery.range, ← Recovery.limit]
  have ranges : ∀ id, after.range id = before.range id := fun id => by
    rw [Recovery.range, same, ← Recovery.range]
  refine ⟨fun construct => ?_, fun checked whole => ?_⟩
  · rw [ranges, ranges]
    exact respects.start (same ▸ construct)
  · rw [limits, limits]
    exact respects.limit (same ▸ checked) whole

/-- A branch does not end before it begins, and its else branch ends inside the subroutine. -/
def BranchesOn (input : RecoveryInput) (sub : Nat) (node : Node) : Prop :=
  ∀ body skip, node.shape = .branch none body skip → body.start ≤ body.limit ∧
    (input.IsConfined sub → ∀ limit, skip = some limit → limit ≤ (input.span sub).2)

/-- What is no branch has nothing to keep. -/
theorem branchesOn_of_plain {input : RecoveryInput} {sub : Nat} {node : Node} (plain : node.isConstruct = false) :
    input.BranchesOn sub node := by
  intro body skip same
  cases node with
  | branch condition body skip => cases plain
  | _ => cases same

/-- The open scopes are in order at some time; some nodes are about to be opened. -/
structure Orderly (input : RecoveryInput) (sub time : Nat) (pending : List NodeId)
    (recovery : Recovery) : Prop where
  /-- The root is the body of the subroutine. -/
  root : (recovery.tree.node ScriptTree.root).outline =
    .block { start := (input.span sub).1, limit := (input.span sub).2 }
  /-- Open nodes own statements. -/
  owns : ∀ scope ∈ recovery.scopes, (recovery.tree.node scope.node).body?.isSome
  /-- Open nodes have begun. -/
  begun : ∀ id ∈ recovery.openNodes, (recovery.range id).1 ≤ time
  /-- Open branches do not end before they begin. -/
  branches : ∀ scope ∈ recovery.scopes, input.BranchesOn sub (recovery.tree.node scope.node)
  /-- What is attached to an open switch and was opened there has ended or is still open. -/
  attached : ∀ inner scope outer, recovery.scopes = inner ++ scope :: outer →
    (recovery.tree.node scope.node).isSwitch → ∀ child ∈ recovery.tree.children scope.node,
      child < recovery.tree.size ∧ ((recovery.tree.node child).isConstruct →
        recovery.limit child ≤ time ∨ child ∈ inner.map (·.node) ∨ child ∈ pending)
  /-- What is checked lies within what is around it. -/
  chain : recovery.openNodes.IsChain (input.Respects sub recovery)

namespace Orderly

variable {input : RecoveryInput} {sub time : Nat} {pending : List NodeId} {before after : Recovery}

theorem root_lt (orderly : input.Orderly sub time pending before) :
    ScriptTree.root < before.tree.size := by
  refine ScriptTree.lt_of_body? ?_
  rw [Node.owns_congr (orderly.root.trans rfl :
    _ = (Node.block { start := (input.span sub).1, limit := (input.span sub).2 }).outline)]
  rfl

theorem lt_size (orderly : input.Orderly sub time pending before) {id : NodeId}
    (listed : id ∈ before.openNodes) : id < before.tree.size := by
  rcases List.mem_append.mp listed with inner | last
  · obtain ⟨scope, there, rfl⟩ := List.mem_map.mp inner
    exact ScriptTree.lt_of_body? (orderly.owns scope there)
  · rw [List.mem_singleton.mp last]
    exact orderly.root_lt

theorem range_root (orderly : input.Orderly sub time pending before) :
    before.range ScriptTree.root = input.span sub := by
  have root := orderly.root
  rw [Recovery.range]
  cases here : before.tree.node ScriptTree.root with
  | block body =>
      rw [here] at root
      have same := Node.block.inj root
      exact Prod.ext (congrArg Body.start same) (congrArg Body.limit same)
  | _ =>
      rw [here] at root
      cases root

theorem later {last : Nat} (orderly : input.Orderly sub time pending before)
    (order : time ≤ last) : input.Orderly sub last pending before :=
  { orderly with
    begun := fun id listed => Nat.le_trans (orderly.begun id listed) order
    attached := fun inner scope outer split switches child held => by
      obtain ⟨inside, ended⟩ := orderly.attached inner scope outer split switches child held
      exact ⟨inside, fun construct => (ended construct).imp_left fun past => Nat.le_trans past order⟩ }

/-- The tree grows around the same open scopes. -/
theorem grow {more : List NodeId} (orderly : input.Orderly sub time pending before)
    (scopes : after.scopes = before.scopes) (size : before.tree.size ≤ after.tree.size)
    (outline : ∀ id < before.tree.size,
      (after.tree.node id).outline = (before.tree.node id).outline)
    (child : ∀ holder < before.tree.size, ∀ child ∈ after.tree.children holder,
      child ∈ before.tree.children holder ∨ child < after.tree.size ∧
        ((after.tree.node child).isConstruct → child ∈ more))
    (included : pending ⊆ more)
    (branches : ∀ scope ∈ before.scopes, input.BranchesOn sub (after.tree.node scope.node)) :
    input.Orderly sub time more after := by
  have nodes : after.openNodes = before.openNodes := by
    rw [Recovery.openNodes, scopes, Recovery.openNodes]
  have same : ∀ id ∈ before.openNodes,
      (after.tree.node id).outline = (before.tree.node id).outline :=
    fun id listed => outline id (orderly.lt_size listed)
  have open_same : ∀ scope ∈ before.scopes,
      (after.tree.node scope.node).outline = (before.tree.node scope.node).outline :=
    fun scope listed => outline _ (ScriptTree.lt_of_body? (orderly.owns scope listed))
  refine ⟨(outline _ orderly.root_lt).trans orderly.root, fun scope listed => ?_, fun id listed => ?_,
    fun scope listed => branches scope (scopes ▸ listed),
    fun inner scope outer split switches other held => ?_, ?_⟩
  · rw [scopes] at listed
    rw [Node.owns_congr (open_same scope listed)]
    exact orderly.owns scope listed
  · rw [nodes] at listed
    rw [Recovery.range_congr (same id listed)]
    exact orderly.begun id listed
  · rw [scopes] at split
    have listed : scope ∈ before.scopes := by simp [split]
    rw [Node.congr_outline Node.isSwitch_outline (open_same scope listed)] at switches
    have there := ScriptTree.lt_of_body? (orderly.owns scope listed)
    rcases child _ there other held with old | ⟨inside, new⟩
    · obtain ⟨inside, ended⟩ := orderly.attached inner scope outer split switches other old
      refine ⟨Nat.lt_of_lt_of_le inside size, fun construct => ?_⟩
      rw [Node.congr_outline Node.isConstruct_outline (outline other inside)] at construct
      rw [Recovery.limit_congr (outline other inside)]
      exact (ended construct).imp_right fun waits => waits.imp_right fun there => included there
    · exact ⟨inside, fun construct => .inr (.inr (new construct))⟩
  · rw [nodes]
    refine orderly.chain.imp_of_mem_imp fun inner outer inner_listed outer_listed respects =>
      ⟨fun construct => ?_, fun checked => ?_⟩
    · rw [Node.congr_outline Node.isConstruct_outline (same inner inner_listed)] at construct
      rw [Recovery.range_congr (same inner inner_listed), Recovery.range_congr (same outer outer_listed)]
      exact respects.start construct
    · rw [Node.congr_outline Node.isChecked_outline (same inner inner_listed)] at checked
      rw [Recovery.limit_congr (same inner inner_listed), Recovery.limit_congr (same outer outer_listed)]
      exact respects.limit checked

/-- Steps that keep the scopes keep their order. -/
theorem keep (orderly : input.Orderly sub time pending before) (keeps : before.Keeps after) :
    input.Orderly sub time pending after := by
  refine orderly.grow keeps.scopes keeps.tree.size
    (fun id inside => Node.outline_congr (keeps.tree.shape id inside))
    (fun holder inside child held => ?_) (List.Subset.refl _) fun scope listed => ?_
  · refine (keeps.tree.child holder inside child held).imp_right fun new => ⟨new.1, fun construct => ?_⟩
    rw [new.2] at construct
    cases construct
  · have inside := ScriptTree.lt_of_body? (orderly.owns scope listed)
    rw [BranchesOn, keeps.tree.shape _ inside]
    exact orderly.branches scope listed

/-- A node is opened. -/
theorem enter {scope : Scope} (orderly : input.Orderly sub time pending before)
    (only : ∀ id ∈ pending, id = scope.node)
    (owns : (before.tree.node scope.node).body?.isSome)
    (begun : (before.range scope.node).1 ≤ time)
    (branches : input.BranchesOn sub (before.tree.node scope.node))
    (attached : (before.tree.node scope.node).isSwitch →
      ∀ child ∈ before.tree.children scope.node,
        child < before.tree.size ∧ (before.tree.node child).isConstruct = false)
    (respects : input.Respects sub before scope.node before.current) :
    input.Orderly sub time [] { before with scopes := scope :: before.scopes } := by
  refine ⟨orderly.root, List.forall_mem_cons.mpr ⟨owns, orderly.owns⟩,
    List.forall_mem_cons.mpr ⟨begun, orderly.begun⟩,
    List.forall_mem_cons.mpr ⟨branches, orderly.branches⟩,
    fun inner found outer split switches child held => ?_, ?_⟩
  · rcases List.cons_eq_append_iff.mp split with ⟨rfl, same⟩ | ⟨others, rfl, rest⟩
    · obtain ⟨rfl, -⟩ := List.cons.inj same
      obtain ⟨inside, plain⟩ := attached switches child held
      refine ⟨inside, fun construct => ?_⟩
      exact absurd (plain.symm.trans construct) Bool.false_ne_true
    · obtain ⟨inside, ended⟩ := orderly.attached others found outer rest switches child held
      refine ⟨inside, fun construct => (ended construct).imp_right fun waits => .inl ?_⟩
      rw [List.map_cons]
      rcases waits with above | new
      · exact List.mem_cons_of_mem _ above
      · rw [only child new]
        exact List.mem_cons_self
  · show List.IsChain _ (scope.node :: before.openNodes)
    rw [Recovery.openNodes_eq, List.isChain_cons_cons, ← Recovery.openNodes_eq]
    exact ⟨respects.congr rfl, orderly.chain.imp fun _ _ respects => respects.congr rfl⟩

/-- The innermost scope is closed when it has ended. -/
theorem leave {scope : Scope} {outer : List Scope} (orderly : input.Orderly sub time pending before)
    (scopes : before.scopes = scope :: outer) (ended : before.limit scope.node ≤ time) :
    input.Orderly sub time pending { before with scopes := outer } := by
  have nodes : before.openNodes = scope.node :: Recovery.openNodes { before with scopes := outer } := by
    rw [Recovery.openNodes, scopes]
    rfl
  refine ⟨orderly.root, fun other listed => orderly.owns other ?_, fun id listed => orderly.begun id ?_,
    fun other listed => orderly.branches other ?_,
    fun inner found around split switches child held => ?_, ?_⟩
  · rw [scopes]
    exact List.mem_cons_of_mem _ listed
  · rw [nodes]
    exact List.mem_cons_of_mem _ listed
  · rw [scopes]
    exact List.mem_cons_of_mem _ listed
  · have whole : before.scopes = (scope :: inner) ++ found :: around := by
      rw [scopes, List.cons_append]
      exact congrArg _ split
    obtain ⟨inside, finished⟩ := orderly.attached _ found around whole switches child held
    refine ⟨inside, fun construct => ?_⟩
    rcases finished construct with past | above | waits
    · exact .inl past
    · rcases List.mem_cons.mp above with rfl | above
      · exact .inl ended
      · exact .inr (.inl above)
    · exact .inr (.inr waits)
  · have chain := orderly.chain
    rw [nodes] at chain
    exact chain.tail.imp fun _ _ respects => respects.congr rfl

/-- A statement is attached to the innermost open node. -/
theorem attach {id : NodeId} (orderly : input.Orderly sub time [] before)
    (inside : id < before.tree.size) :
    input.Orderly sub time [id] { before with tree := before.tree.append before.current id } := by
  have placed := ScriptTree.Rearranges.append before.tree before.current id
  refine orderly.grow rfl (Nat.le_of_eq placed.size.symm) (fun other _ => placed.outline other)
    (fun holder _ child held => ?_) (List.nil_subset _) fun scope listed => ?_
  · refine (ScriptTree.mem_children_append held).imp_right ?_
    rintro rfl
    exact ⟨inside.trans_eq placed.size.symm, fun _ => List.mem_singleton_self _⟩
  · rw [BranchesOn, ScriptTree.shape_append]
    exact orderly.branches scope listed

/-- What does not escape fits into the innermost open node. -/
theorem fits (orderly : input.Orderly sub time pending before) {limit : Nat}
    (inside : ¬before.escapes limit)
    (confined : input.IsConfined sub → limit ≤ (input.span sub).2)
    (whole : before.current = ScriptTree.root → input.IsConfined sub) :
    limit ≤ before.limit before.current := by
  by_cases outermost : before.scopes = []
  · have root : before.current = ScriptTree.root := by rw [Recovery.current, outermost]
    rw [root, Recovery.limit, orderly.range_root]
    exact confined (whole root)
  · exact Recovery.le_limit_of_fits inside outermost

/-- The innermost open node has begun. -/
theorem current_begun (orderly : input.Orderly sub time pending before) :
    (before.range before.current).1 ≤ time :=
  orderly.begun _ before.current_mem_openNodes

/-- A node is attached to the innermost open one and opened. -/
theorem attachEnter {id : NodeId} {node : Node} {body : Body} {height : Nat}
    (orderly : input.Orderly sub time [] before) (inside : id < before.tree.size)
    (other : id ≠ before.current) (shape : (before.tree.node id).shape = node.shape)
    (owns : node.body? = some body) (begun : body.start ≤ time) (branches : input.BranchesOn sub node)
    (attached : node.isSwitch → ∀ child ∈ before.tree.children id,
      child < before.tree.size ∧ (before.tree.node child).isConstruct = false)
    (around : (before.range before.current).1 ≤ body.start)
    (fits : node.isChecked → (before.current = ScriptTree.root → input.IsConfined sub) →
      body.limit ≤ before.limit before.current) :
    input.Orderly sub time [] { before with
      tree := before.tree.append before.current id
      scopes := ⟨id, height⟩ :: before.scopes } := by
  have placed := orderly.attach inside
  have kept (id' : NodeId) := ScriptTree.shape_append before.tree before.current id id'
  have children : (before.tree.append before.current id).children id = before.tree.children id :=
    ScriptTree.children_append_of_ne other
  have size : (before.tree.append before.current id).size = before.tree.size :=
    (ScriptTree.Rearranges.append before.tree before.current id).size
  have new := (kept id).trans shape
  generalize before.tree.append before.current id = tree at placed kept children size new ⊢
  have outline := Node.outline_congr new
  have range : Recovery.range { before with tree } id = (body.start, body.limit) :=
    Recovery.range_of_shape new owns
  have same : Recovery.range { before with tree } before.current = before.range before.current :=
    Recovery.range_congr (Node.outline_congr (kept before.current))
  refine placed.enter (fun id listed => List.mem_singleton.mp listed) ?_
    ((congrArg Prod.fst range).trans_le begun) ?_ (fun switches child held => ?_)
    ⟨fun _ => ?_, fun checked whole => ?_⟩
  · show (tree.node id).body?.isSome
    rw [Node.owns_congr outline, owns]
    rfl
  · show input.BranchesOn sub (tree.node id)
    rw [BranchesOn, new]
    exact branches
  · obtain ⟨there, bare⟩ := attached
      ((Node.congr_outline Node.isSwitch_outline outline).symm.trans switches) child (children ▸ held)
    exact ⟨there.trans_eq size.symm, (Node.isConstruct_congr (kept child)).trans bare⟩
  · show (Recovery.range { before with tree } before.current).1 ≤
      (Recovery.range { before with tree } id).1
    rw [same, range]
    exact around
  · show (Recovery.range { before with tree } id).2 ≤
      (Recovery.range { before with tree } before.current).2
    rw [same, range]
    exact fits ((Node.congr_outline Node.isChecked_outline outline).symm.trans checked) whole

/-- The innermost open branch gets an else branch that ends inside the subroutine. -/
theorem setSkip {condition : Option NodeId} {body : Body} {target : Nat}
    (orderly : input.Orderly sub time [] before)
    (node : before.tree.node before.current = .branch condition body none)
    (confined : input.IsConfined sub → target ≤ (input.span sub).2) :
    input.Orderly sub time [] { before with
      tree := before.tree.modify before.current fun _ => .branch condition body (some target) } := by
  refine orderly.grow rfl (Nat.le_of_eq (ScriptTree.size_modify _ _ _).symm) (fun id _ => ?_)
    (fun holder _ child held => .inl ?_) (List.Subset.refl _) fun scope listed => ?_
  · rcases ScriptTree.node_modify_cases before.tree before.current id _ with kept | ⟨rfl, changed⟩
    · exact congrArg Node.outline kept
    · exact (congrArg Node.outline changed).trans (congrArg Node.outline node).symm
  · rw [ScriptTree.children_eq] at held ⊢
    rcases ScriptTree.node_modify_cases before.tree before.current holder
      (fun _ => .branch condition body (some target)) with kept | ⟨rfl, changed⟩
    · rwa [← kept]
    · rw [node]
      rwa [changed] at held
  · have branches := orderly.branches scope listed
    rcases ScriptTree.node_modify_cases before.tree before.current scope.node
      (fun _ => .branch condition body (some target)) with kept | ⟨same, changed⟩
    · exact kept ▸ branches
    · rw [same, node] at branches
      rw [changed]
      rintro _ _ ⟨⟩
      refine ⟨(branches _ _ rfl).1, ?_⟩
      rintro stays _ ⟨⟩
      exact confined stays

/-- The innermost open node stays where it is. -/
theorem range_current {after : Recovery} (orderly : input.Orderly sub time pending before)
    (keeps : before.Keeps after) : after.range after.current = before.range before.current := by
  rw [keeps.current, keeps.range (orderly.lt_size before.current_mem_openNodes)]

/-- The innermost scope respects the node around it. -/
theorem respects_around {scope : Scope} {outer : List Scope}
    (orderly : input.Orderly sub time pending before) (scopes : before.scopes = scope :: outer) :
    input.Respects sub before scope.node (Recovery.current { before with scopes := outer }) := by
  have chain := orderly.chain
  have nodes : before.openNodes = scope.node :: Recovery.openNodes { before with scopes := outer } := by
    rw [Recovery.openNodes, scopes]
    rfl
  rw [nodes, Recovery.openNodes_eq] at chain
  exact chain.rel

/-- The case that holds the time has begun and has never been opened. -/
theorem case_begun (orderly : input.Orderly sub time [] before) {case : NodeId}
    (found : before.caseAt? time = some case) : ∃ body, (before.tree.node case).body? = some body ∧
      body.start ≤ time ∧ time < body.limit ∧ (before.tree.node case).isConstruct = false := by
  rw [Recovery.caseAt?] at found
  split at found
  · rename_i switches
    have held := List.mem_of_find?_eq_some found
    obtain ⟨body, owns, starts, ends⟩ : ∃ body, (before.tree.node case).body? = some body ∧
        body.start ≤ time ∧ time < body.limit := by
      have holds := List.find?_some found
      cases owns : (before.tree.node case).body? with
      | none => simp [owns] at holds
      | some body => exact ⟨body, rfl, by simpa [owns, Body.holds] using holds⟩
    refine ⟨body, owns, starts, ends, ?_⟩
    cases scopes : before.scopes with
    | nil =>
        have root := orderly.root
        rw [Recovery.current, scopes, ← Node.isSwitch_outline, root] at switches
        cases switches
    | cons scope outer =>
        rw [Recovery.current, scopes] at switches held
        have attached := (orderly.attached [] scope outer scopes switches case held).2
        rw [Bool.eq_false_iff]
        intro construct
        rcases attached construct with ended | above | waits
        · rw [Recovery.limit, Recovery.range, owns] at ended
          exact absurd ends (Nat.not_lt.mpr ended)
        · exact absurd above List.not_mem_nil
        · exact absurd waits List.not_mem_nil
  · cases found

end Orderly
end RecoveryInput
end NwScript
