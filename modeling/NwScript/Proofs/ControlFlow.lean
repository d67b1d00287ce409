import NwScript.Proofs.FramedPasses
import NwScript.Proofs.TidiedLabels

/-!
# Control flow of recovered trees

Else branches, jumps out of loops and switches, jumps to the next turn and cases are written where byte
positions say so.  Without deferred arguments each of them stands where a script may have it: finishing
a tree changes no kind of a node, and the rules of the cleanup move bodies as a whole and exchange
declarations and assignments only.
-/

namespace NwScript

namespace Node

theorem sameKind_keepArguments (kept : Nat) (node : Node) :
    node.SameKind (ScriptTree.keepArguments kept node) := by
  cases node <;> exact ⟨rfl, rfl, rfl, rfl, rfl, rfl, rfl⟩

theorem sameKind_holding (children : List NodeId) (node : Node) :
    node.SameKind (node.holding children) :=
  .of_outline (outline_mapBody _ _)

end Node

namespace ScriptTree

/-- Statements have one place each, the control flow is in order, and loops have conditions. -/
structure IsRegular (tree : ScriptTree) : Prop where
  /-- Statements have one place. -/
  proper : tree.IsProper
  /-- The control flow is in order. -/
  ordered : tree.IsOrdered
  /-- Loops have conditions. -/
  closed : ∀ {holder child : NodeId}, child ∈ tree.children holder →
    Recovery.isOpenLoop (tree.node child) = false

variable {tree before after changed : ScriptTree} {host inner new id : NodeId} {statement : Node}
  {left old right : List NodeId}

section Resembling

/-- Trees with the same bodies whose nodes are of the same kinds are in the same order. -/
theorem IsOrdered.congr (ordered : before.IsOrdered) (size : after.size = before.size)
    (children : ∀ id, after.children id = before.children id)
    (same : ∀ id, (before.node id).SameKind (after.node id)) : after.IsOrdered where
  rooted := (same root).isBlock.trans ordered.rooted
  order := fun holder => by
    rw [children]
    exact (ordered.order holder).congr fun id _ => same id
  inside := fun {holder child} held => by
    rw [children] at held
    rw [size]
    exact ordered.inside held
  cases := fun {holder child} held isCase => by
    rw [children] at held
    rw [(same child).isCase] at isCase
    rw [(same holder).isSwitch]
    exact ordered.cases held isCase
  jumps := fun {holder child} held test needs => by
    rw [children] at held
    rw [(same child).enclosure?] at needs
    refine (ordered.jumps held needs).keep needs (fun around _ => same around) fun _ chain => ?_
    refine Relation.TransGen.mono (fun upper lower held => ?_) _ _ chain
    rw [Holds, children]
    exact held

theorem IsRegular.resembles (regular : before.IsRegular) (resembles : before.Resembles after)
    (same : ∀ id, (before.node id).SameKind (after.node id))
    (closed : ∀ id, Recovery.isOpenLoop (after.node id) → Recovery.isOpenLoop (before.node id)) :
    after.IsRegular where
  proper := resembles.isProper regular.proper
  ordered := regular.ordered.congr resembles.size resembles.children same
  closed := fun {holder child} held => by
    rw [resembles.children] at held
    exact Bool.eq_false_iff.mpr (mt (closed child) (Bool.eq_false_iff.mp (regular.closed held)))

/-- Arguments that are omitted and names that are given change no control flow. -/
theorem IsRegular.finishes (regular : before.IsRegular) (finishes : before.Finishes after) :
    after.IsRegular := by
  refine regular.resembles (.of_finishes finishes) (fun id => ?_) fun id isLoop => ?_
  · obtain ⟨kept, here⟩ := finishes.node id
    rw [here]
    exact Node.sameKind_keepArguments kept _
  · obtain ⟨kept, here⟩ := finishes.node id
    rw [here] at isLoop
    cases former : before.node id with
    | whileLoop | doLoop =>
        rw [former] at isLoop
        exact isLoop
    | _ =>
        rw [former] at isLoop
        cases isLoop

theorem IsRegular.settle? {child : NodeId} (regular : tree.IsRegular)
    (applied : tree.settle? child = some changed) : changed.IsRegular := by
  have resembles := Resembles.of_settle? applied
  unfold ScriptTree.settle? at applied
  split at applied
  swap
  · cases applied
  rename_i var init here
  cases applied
  have nodes := fun id =>
    node_modify_cases tree child id fun _ => .declaration var init false
  refine regular.resembles resembles (fun id => ?_) fun id isLoop => ?_
  · rcases nodes id with same | ⟨rfl, same⟩
    · exact .of_outline (congrArg Node.outline same)
    · refine .of_outline ?_
      rw [same, here]
      rfl
  · rcases nodes id with same | ⟨rfl, same⟩
    · rwa [same] at isLoop
    · rw [same] at isLoop
      cases isLoop

end Resembling

section Absorbing

/-- A body takes over the statements of its only block. -/
theorem Absorbs.isRegular (absorbs : Absorbs host inner before after) (regular : before.IsRegular) :
    after.IsRegular := by
  have proper := regular.proper
  have placed := proper.placed.some host
  have ordered := regular.ordered
  have same : ∀ id, (before.node id).SameKind (after.node id) := fun id => by
    obtain ⟨statements, here⟩ := absorbs.exists_node_eq id
    rw [here]
    exact Node.sameKind_holding statements _
  have former : ∀ {holder child}, child ∈ after.children holder →
      ∃ place, child ∈ before.children place := by
    intro holder child held
    rcases absorbs.child_cases placed held with ⟨_, there⟩ | ⟨_, there⟩
    · exact ⟨inner, there⟩
    · exact ⟨holder, there⟩
  refine ⟨absorbs.isProper proper, ⟨?_, fun holder => ?_, fun held => ?_,
    fun {holder child} held isCase => ?_, fun {holder child} held test needs => ?_⟩, fun held => ?_⟩
  · exact (same root).isBlock.trans ordered.rooted
  · have kept : before.InOrder (after.children holder) := ?_
    · exact kept.congr fun id _ => same id
    by_cases at_host : holder = host
    · rw [at_host, absorbs.children_host]
      exact ordered.order inner
    by_cases at_inner : holder = inner
    · rw [at_inner, absorbs.children_inner placed, remaining, List.filter_eq_nil_iff.mpr]
      · exact .nil before
      · intro child held
        simp [held, placed.home held (proper.children held)]
    · rw [absorbs.children_of_ne at_host at_inner]
      exact ordered.order holder
  · obtain ⟨place, there⟩ := former held
    rw [absorbs.size]
    exact ordered.inside there
  · rw [(same child).isCase] at isCase
    rw [(same holder).isSwitch]
    rcases absorbs.child_cases placed held with ⟨rfl, there⟩ | ⟨_, there⟩
    · have switches := ordered.cases there isCase
      have block := absorbs.block
      cases here : before.node inner <;> simp [here, Node.isBlock, Node.isSwitch] at block switches
    · exact ordered.cases there isCase
  · rw [(same child).enclosure?] at needs
    obtain ⟨place, there⟩ := former held
    refine (ordered.jumps there needs).keep needs (fun around _ => same around) fun {around} kind chain => ?_
    have other : around ≠ inner := by
      rintro rfl
      have block := absorbs.block
      cases here : before.node around <;>
        simp [here, Node.isBlock, Node.isLoop, Node.isSwitch] at block kind
    have apart : child ≠ inner := by
      rintro rfl
      cases (Node.enclosure?_eq_none_of_owns (Node.owns_of_isBlock absorbs.block)).symm.trans needs
    rcases absorbs.chain_cases proper other chain.to_reflTransGen with ⟨same, _⟩ | ⟨_, later⟩
    · exact absurd same apart
    · refine (Relation.reflTransGen_iff_eq_or_transGen.mp later).resolve_left ?_
      rintro rfl
      have owns := Node.owns_of_mem_statements (Relation.TransGen.head'_iff.mp chain).choose_spec.1
      cases (Node.enclosure?_eq_none_of_owns owns).symm.trans needs
  · obtain ⟨statements, here⟩ := absorbs.exists_node_eq _
    obtain ⟨place, there⟩ := former held
    rw [here, Recovery.isOpenLoop_holding]
    exact regular.closed there

end Absorbing

section Rewriting

/-- A declaration takes the place of loose statements. -/
theorem Rewrites.isRegular (rewrites : Rewrites host new statement left old right before after)
    (regular : before.IsRegular) (loose : ∀ id ∈ old, (before.node id).isLoose)
    (fits : statement.isLoose)
    (same : new ∈ old → statement.outline = (before.node new).outline) : after.IsRegular := by
  have placed := regular.proper.placed.some host
  have size : before.size ≤ after.size := by
    rcases rewrites.place with ⟨_, size⟩ | ⟨_, size⟩ <;> omega
  have inside : new < after.size := by
    rcases rewrites.place with ⟨fresh, size⟩ | ⟨listed, size⟩
    · rw [fresh, size]
      exact Nat.lt_succ_self _
    · exact size ▸ placed.child_inside (rewrites.held_of_mem listed)
  have exchanges : Exchanges host left old [new] right before after := by
    refine ⟨size, fun id there => ?_, rewrites.held, funext fun id => ?_⟩
    · by_cases here : id = new
      · rcases rewrites.place with ⟨fresh, _⟩ | ⟨listed, _⟩
        · exact absurd (here.trans fresh) (Nat.ne_of_lt there)
        · rw [here, rewrites.node_new]
          exact same listed
      · obtain ⟨statements, changed⟩ := rewrites.exists_node_eq here
        rw [changed, Node.outline_mapBody]
    · rw [Function.update_apply]
      split
      · rename_i here
        rw [here, rewrites.children_host, List.append_assoc, List.singleton_append]
      · exact rewrites.children_of_ne ‹_›
  refine ⟨rewrites.isProper regular.proper, ?_, fun {holder child} held => ?_⟩
  · refine regular.ordered.exchange exchanges rewrites.taken loose (Nat.le_refl _) fun id listed => ?_
    obtain rfl := List.mem_singleton.mp listed
    exact ⟨inside, rewrites.node_new ▸ fits⟩
  · by_cases here : child = new
    · rw [here, rewrites.node_new]
      cases statement <;> first | rfl | cases fits
    · obtain ⟨statements, changed⟩ := rewrites.exists_node_eq here
      rw [changed, Recovery.isOpenLoop_holding]
      exact regular.closed ((rewrites.child_cases held).resolve_left fun both => here both.1)

/-- Declarations of members become the declaration of the whole. -/
theorem IsRegular.merge? {index : Nat} (regular : tree.IsRegular)
    (applied : merge? host tree index = some changed) : changed.IsRegular := by
  have placed := regular.proper.placed.some host
  obtain ⟨left, run, right, aggregate, _, split, some_member, is_run, rfl⟩ :=
    exists_run_of_merge? applied
  have rewrites := rewrites_of_isRun placed split some_member is_run
  refine rewrites.isRegular regular (fun id listed => ?_) rfl fun listed => ?_
  · obtain ⟨_, _, here, _⟩ := is_run.declares listed
    rw [here]
    rfl
  · exact absurd (placed.child_inside (rewrites.held_of_mem listed)) (Nat.lt_irrefl _)

/-- An assigned value becomes the initial value of a declaration. -/
theorem IsRegular.foldInitializer? {index : Nat} (regular : tree.IsRegular)
    (applied : foldInitializer? host tree index = some changed) : changed.IsRegular := by
  obtain ⟨left, declaration, next, right, _, _, _, _, _, _, split, folds, rfl⟩ :=
    exists_folds_of_foldInitializer? applied
  have rewrites := rewrites_of_folds (regular.proper.placed.some host) split folds
  refine rewrites.isRegular regular (fun id listed => ?_) rfl fun _ => ?_
  · rcases List.mem_pair.mp listed with rfl | rfl
    · rw [folds.declares]
      rfl
    · rw [folds.states]
      rfl
  · rw [folds.declares]
    rfl

end Rewriting

/-- Only expressions among the statements are promoted, and there are none. -/
theorem IsProper.promote?_eq_none (proper : tree.IsProper) (host child : NodeId) :
    promote? host tree child = none := by
  unfold promote?
  split
  · rename_i expression
    rw [detach_eq_self fun holder _ held => ?_]
    exact absurd expression (Bool.eq_false_iff.mp (proper.children held))
  · rfl

/-- A cleanup keeps the control flow in order. -/
theorem IsRegular.cleanup (regular : tree.IsRegular) : tree.cleanup.1.IsRegular := by
  refine cleanup_induction (fun {tree changed host} regular applied => ?_)
    (fun regular applied => ?_) .settle? .merge? .foldInitializer? regular
  · obtain ⟨inner, absorbs⟩ := exists_absorbs (regular.proper.placed.some host) applied
    exact absorbs.isRegular regular
  · cases (regular.proper.promote?_eq_none _ _).symm.trans applied

section Flow

variable (regular : tree.IsRegular) (reaches : tree.Reaches root id)

include regular reaches

omit reaches

end Flow

end ScriptTree

namespace RecoveryInput

open ScriptTree

variable {input : RecoveryInput} {sub : Nat} {tree : ScriptTree}

end RecoveryInput
end NwScript
