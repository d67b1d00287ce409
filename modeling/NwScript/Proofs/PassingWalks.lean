import Mathlib.Data.Finset.Card
import NwScript.Proofs.CleanupRules

/-!
# Walks that pass assignments

A walk may pass an assignment among the statements of a body and go on at the value that it assigns.
In a tree without circles such a walk has depth to spare, so what it gathers at a node is what the node
gives, followed by what is gathered at the operands and at the statements or values behind it.
-/

namespace NwScript
namespace ScriptTree

/-- Target and value of the assignment that a child statement is or evaluates. -/
def assignment? (tree : ScriptTree) (child : NodeId) : Option (NodeId × NodeId) :=
  match tree.node child with
  | .assign target value => some (target, value)
  | .statement expression =>
      match tree.node expression with
      | .assign target value => some (target, value)
      | _ => none
  | _ => none

/-- Where a walk goes on at a child statement: an assignment may be passed for its value. -/
def passed (tree : ScriptTree) (folded : NodeId → NodeId → Bool) (holder child : NodeId) : NodeId :=
  match tree.assignment? child with
  | some (_, value) => if folded holder child then value else child
  | none => child

/-- What is right below a node when some assignments are passed. -/
def pathsFrom (tree : ScriptTree) (folded : NodeId → NodeId → Bool) (id : NodeId) : List NodeId :=
  (tree.node id).operands ++ (tree.children id).map (tree.passed folded id)

/-- The nodes below one in the order of a walk that passes the assignments in some places. -/
def walkPastFrom (tree : ScriptTree) (folded : NodeId → NodeId → Bool) :
    (depth : Nat) → NodeId → List NodeId
  | 0, _ => []
  | depth + 1, id => id :: (tree.pathsFrom folded id).flatMap (walkPastFrom tree folded depth)

/-- The nodes that a walk meets from the root if it passes some assignments. -/
def walkPast (tree : ScriptTree) (folded : NodeId → NodeId → Bool) : List NodeId :=
  tree.walkPastFrom folded (tree.size + 1) root

variable {α : Type} {tree : ScriptTree} {host : Option NodeId} {folded : NodeId → NodeId → Bool}
  {holder child id : NodeId}

section Passing

@[simp]
theorem passed_false (tree : ScriptTree) (holder child : NodeId) :
    tree.passed (fun _ _ => false) holder child = child := by
  unfold passed
  split <;> rfl

theorem pathsFrom_false (tree : ScriptTree) (id : NodeId) :
    tree.pathsFrom (fun _ _ => false) id = (tree.node id).operands ++ tree.children id := by
  rw [pathsFrom, List.map_congr_left fun child _ => tree.passed_false id child, List.map_id']

/-- A walk that passes nothing is a walk. -/
theorem walkPast_false (tree : ScriptTree) : tree.walkPast (fun _ _ => false) = tree.walk := by
  have from_depth : ∀ depth id, tree.walkPastFrom (fun _ _ => false) depth id =
      tree.walkFrom depth id := by
    intro depth
    induction depth with
    | zero => exact fun _ => rfl
    | succ depth induction =>
        intro id
        rw [walkPastFrom, walkFrom, pathsFrom_false, funext induction]
  exact from_depth _ _

/-- The value of an assignment is an operand of it. -/
theorem exists_user_of_assignment? {target value : NodeId}
    (assigns : tree.assignment? child = some (target, value)) :
    ∃ user, tree.node user = .assign target value ∧
      (user = child ∨ tree.node child = .statement user) := by
  unfold assignment? at assigns
  split at assigns
  · rename_i here
    obtain ⟨rfl, rfl⟩ := Prod.mk.inj (Option.some.inj assigns)
    exact ⟨child, here, .inl rfl⟩
  · rename_i expression here
    split at assigns
    · rename_i there
      obtain ⟨rfl, rfl⟩ := Prod.mk.inj (Option.some.inj assigns)
      exact ⟨expression, there, .inr here⟩
    · cases assigns
  · cases assigns

theorem assignment?_of_isBlock (block : (tree.node child).isBlock) : tree.assignment? child = none := by
  rw [assignment?]
  revert block
  cases tree.node child <;> simp [Node.isBlock]

theorem passed_cases (tree : ScriptTree) (folded : NodeId → NodeId → Bool) (holder child : NodeId) :
    tree.passed folded holder child = child ∨ folded holder child ∧ ∃ target,
      tree.assignment? child = some (target, tree.passed folded holder child) := by
  unfold passed
  split
  · rename_i target value assigns
    by_cases passes : folded holder child
    · rw [if_pos passes]
      exact .inr ⟨passes, target, assigns⟩
    · rw [if_neg passes]
      exact .inl rfl
  · exact .inl rfl

/-- Everything right below a node on such a walk is below it in the tree. -/
theorem transGen_of_mem_pathsFrom {lower : NodeId} (listed : lower ∈ tree.pathsFrom folded id) :
    Relation.TransGen tree.Below id lower := by
  rcases List.mem_append.mp listed with used | there
  · exact .single (.inl used)
  obtain ⟨child, held, rfl⟩ := List.mem_map.mp there
  rcases tree.passed_cases folded id child with same | ⟨_, target, assigns⟩
  · rw [same]
    exact .single (.inr held)
  obtain ⟨user, here, stands⟩ := exists_user_of_assignment? assigns
  have last : tree.Below user (tree.passed folded id child) :=
    .inl (by rw [here]; simp [Node.operands])
  rcases stands with rfl | states
  · exact .tail (.single (.inr held)) last
  · have first : tree.Below child user := .inl (by rw [states]; simp [Node.operands])
    exact .tail (.tail (.single (.inr held)) first) last

/-- Only assignments that a walk comes to can be passed. -/
theorem walkPast_congr {passing : NodeId → NodeId → Bool}
    (same : ∀ {body child}, tree.Reaches root body → child ∈ tree.children body →
      (tree.assignment? child).isSome → passing body child = folded body child) :
    tree.walkPast passing = tree.walkPast folded := by
  have from_depth : ∀ depth {id}, tree.Reaches root id →
      tree.walkPastFrom passing depth id = tree.walkPastFrom folded depth id := by
    intro depth
    induction depth with
    | zero => exact fun _ => rfl
    | succ depth induction =>
        intro id met
        have paths : tree.pathsFrom passing id = tree.pathsFrom folded id := by
          rw [pathsFrom, pathsFrom]
          congr 1
          refine List.map_congr_left fun child held => ?_
          rw [passed, passed]
          split
          · rename_i assigns
            rw [same met held (by simp [assigns])]
          · rfl
        rw [walkPastFrom, walkPastFrom, paths]
        congr 1
        exact List.flatMap_congr fun lower listed =>
          induction (met.trans (transGen_of_mem_pathsFrom listed).to_reflTransGen)
  exact from_depth _ .refl

end Passing

section Heights

open Classical in
/-- Number of nodes below a node. -/
noncomputable def height (tree : ScriptTree) (id : NodeId) : Nat :=
  ((Finset.range tree.size).filter fun lower => Relation.TransGen tree.Below id lower).card

theorem height_le (tree : ScriptTree) (id : NodeId) : tree.height id ≤ tree.size := by
  classical
  exact (Finset.card_filter_le _ _).trans_eq (Finset.card_range _)

/-- Where nothing is below itself, fewer nodes are below a lower node. -/
theorem IsPlaced.height_lt (placed : tree.IsPlaced host) {upper lower : NodeId}
    (chain : Relation.TransGen tree.Below upper lower) : tree.height lower < tree.height upper := by
  classical
  have inside : lower < tree.size := by
    obtain ⟨_, _, last⟩ := Relation.TransGen.tail'_iff.mp chain
    exact placed.inside last
  refine Finset.card_lt_card ((Finset.ssubset_iff_of_subset fun deeper => ?_).mpr ⟨lower, ?_, ?_⟩)
  · rw [Finset.mem_filter, Finset.mem_filter]
    exact fun both => ⟨both.1, chain.trans both.2⟩
  · exact Finset.mem_filter.mpr ⟨Finset.mem_range.mpr inside, chain⟩
  · exact fun listed => placed.acyclic lower (Finset.mem_filter.mp listed).2

/-- Depths that exceed the number of nodes below a node make no difference. -/
theorem IsPlaced.walkPastFrom_congr (placed : tree.IsPlaced host) {depth deeper : Nat}
    (room : tree.height id < depth) (more : tree.height id < deeper) :
    tree.walkPastFrom folded depth id = tree.walkPastFrom folded deeper id := by
  induction depth generalizing id deeper with
  | zero => exact absurd room (Nat.not_lt_zero _)
  | succ depth induction =>
      obtain ⟨deeper, rfl⟩ := Nat.exists_eq_succ_of_ne_zero (Nat.ne_zero_of_lt more)
      rw [walkPastFrom, walkPastFrom]
      congr 1
      refine List.flatMap_congr fun lower listed => ?_
      have falls := placed.height_lt (transGen_of_mem_pathsFrom listed)
      exact induction (by omega) (by omega)

end Heights

section Gathering

/-- What the nodes below one give, in the order of a walk that passes some assignments. -/
def gathered (tree : ScriptTree) (folded : NodeId → NodeId → Bool) (give : NodeId → Node → List α)
    (id : NodeId) : List α :=
  (tree.walkPastFrom folded (tree.size + 1) id).flatMap fun met => give met (tree.node met)

variable {give : NodeId → Node → List α}

/-- At a node is gathered what it gives and what is gathered right below it. -/
theorem IsPlaced.gathered_eq (placed : tree.IsPlaced host) (id : NodeId) :
    tree.gathered folded give id = give id (tree.node id) ++
      (tree.pathsFrom folded id).flatMap (tree.gathered folded give) := by
  rw [gathered, walkPastFrom, List.flatMap_cons, List.flatMap_assoc]
  congr 1
  refine List.flatMap_congr fun lower listed => ?_
  have falls := placed.height_lt (transGen_of_mem_pathsFrom listed)
  have most := tree.height_le id
  have room : tree.height lower < tree.size := by omega
  rw [gathered, placed.walkPastFrom_congr room (Nat.lt_succ_of_lt room)]

/-- What is gathered at a node that gives nothing and has no child statements. -/
theorem IsPlaced.gathered_of_bare (placed : tree.IsPlaced host) {node : Node}
    (here : tree.node id = node) (silent : give id node = []) (bare : node.body? = none) :
    tree.gathered folded give id = node.operands.flatMap (tree.gathered folded give) := by
  rw [placed.gathered_eq, here, silent, pathsFrom, children_eq, here, Node.statements_eq_nil bare]
  simp

end Gathering

/-- What nodes give tells neither child statements nor declarations, statements or assignments. -/
structure IsQuiet (give : NodeId → Node → List α) : Prop where
  /-- Child statements are not told. -/
  holding : ∀ id node statements, give id (node.holding statements) = give id node
  /-- A declaration gives nothing. -/
  declaration : ∀ id var init pending, give id (.declaration var init pending) = []
  /-- A statement gives nothing. -/
  statement : ∀ id value, give id (.statement value) = []
  /-- An assignment gives nothing. -/
  assign : ∀ id target value, give id (.assign target value) = []

/-- Where variables give nothing either, nothing is lost when assignments to variables are passed. -/
theorem IsPlaced.gathered_eq_of_references {give : NodeId → Node → List α}
    (placed : tree.IsPlaced host) (quiet : IsQuiet give)
    (silent : ∀ id var, give id (.reference var) = [])
    (targets : ∀ {holder child target value}, tree.Reaches root holder →
      child ∈ tree.children holder → folded holder child →
        tree.assignment? child = some (target, value) → ∃ var, tree.node target = .reference var)
    (met : tree.Reaches root id) :
    tree.gathered folded give id = tree.gathered (fun _ _ => false) give id := by
  generalize size : tree.height id = bound
  induction bound using Nat.strong_induction_on generalizing id with
  | _ bound induction =>
      subst size
      have lower : ∀ {next}, Relation.TransGen tree.Below id next →
          tree.gathered folded give next = tree.gathered (fun _ _ => false) give next :=
        fun chain => induction _ (placed.height_lt chain) (met.trans chain.to_reflTransGen) rfl
      rw [placed.gathered_eq, placed.gathered_eq, pathsFrom_false, pathsFrom]
      rw [List.flatMap_append, List.flatMap_append, List.flatMap_map]
      congr 2
      · exact List.flatMap_congr fun operand used => lower (.single (.inl used))
      refine List.flatMap_congr fun child held => ?_
      rcases tree.passed_cases folded id child with same | ⟨passes, target, assigns⟩
      · rw [same]
        exact lower (.single (.inr held))
      -- The statement, the assignment and its target give nothing.
      have below : tree.passed folded id child ∈ tree.pathsFrom folded id :=
        List.mem_append_right _ (List.mem_map_of_mem held)
      obtain ⟨var, names⟩ := targets met held passes assigns
      rw [lower (transGen_of_mem_pathsFrom below)]
      generalize tree.passed folded id child = value at assigns
      obtain ⟨user, here, stands⟩ := exists_user_of_assignment? assigns
      have target_gives : tree.gathered (fun _ _ => false) give target = [] := by
        rw [placed.gathered_of_bare names (silent _ _) rfl]
        rfl
      have user_gives : tree.gathered (fun _ _ => false) give user =
          tree.gathered (fun _ _ => false) give value := by
        rw [placed.gathered_of_bare here (quiet.assign _ _ _) rfl]
        simp [Node.operands, target_gives]
      rw [← user_gives]
      rcases stands with rfl | states
      · rfl
      · rw [placed.gathered_of_bare states (quiet.statement _ _) rfl]
        simp [Node.operands]

end ScriptTree
end NwScript
