import Mathlib.Data.List.Perm.Subperm
import Mathlib.Logic.Relation
import NwScript.Proofs.TreeEdits

/-!
# Walks through a tree

A walk meets a node exactly if a chain of operands and child statements leads to it from the root: such
a chain need not meet a node twice, so it is no longer than there are nodes.
-/

namespace NwScript

namespace ScriptTree

variable {tree : ScriptTree}

/-- A node is an operand or a child statement of another one. -/
def Below (tree : ScriptTree) (upper lower : NodeId) : Prop :=
  lower ∈ (tree.node upper).operands ∨ lower ∈ tree.children upper

/-- A chain of operands and child statements leads from a node to another one. -/
def Reaches (tree : ScriptTree) : NodeId → NodeId → Prop :=
  Relation.ReflTransGen tree.Below

/-- No chain of operands and child statements leads back to where it began. -/
def IsAcyclic (tree : ScriptTree) : Prop :=
  ∀ id, ¬Relation.TransGen tree.Below id id

theorem mem_walkFrom_succ {depth : Nat} {id found : NodeId} :
    found ∈ tree.walkFrom (depth + 1) id ↔
      found = id ∨ ∃ lower, tree.Below id lower ∧ found ∈ tree.walkFrom depth lower := by
  simp only [walkFrom, List.mem_cons, List.mem_flatMap, List.mem_append, Below]

theorem reaches_of_mem_walkFrom {depth : Nat} {id found : NodeId}
    (met : found ∈ tree.walkFrom depth id) : tree.Reaches id found := by
  induction depth generalizing id with
  | zero => exact absurd met List.not_mem_nil
  | succ depth induction =>
      rcases mem_walkFrom_succ.mp met with rfl | ⟨lower, below, deeper⟩
      · exact .refl
      · exact .head below (induction deeper)

theorem Below.lt {upper lower : NodeId} (below : tree.Below upper lower) : upper < tree.size := by
  rcases below with used | held
  · by_contra outside
    rw [node_of_le (Nat.not_lt.mp outside)] at used
    exact absurd used List.not_mem_nil
  · exact lt_of_mem_children held

/-- A chain need not come back to where it begins. -/
theorem reflTransGen_avoiding {α : Type} {edge : α → α → Prop} {first last : α}
    (chain : Relation.ReflTransGen edge first last) : first = last ∨ ∃ next, edge first next ∧
      Relation.ReflTransGen (fun upper lower => edge upper lower ∧ upper ≠ first) next last := by
  induction chain with
  | refl => exact .inl rfl
  | @tail middle last _ below induction =>
      rcases induction with rfl | ⟨next, begun, rest⟩
      · exact .inr ⟨last, below, .refl⟩
      · by_cases back : middle = first
        · subst back
          exact .inr ⟨last, below, .refl⟩
        · exact .inr ⟨next, begun, rest.tail ⟨below, back⟩⟩

section Search

variable {edge : NodeId → NodeId → Prop} (found : Nat → NodeId → Prop) {goal : NodeId} {bound : Nat}
  (here : ∀ depth, found (depth + 1) goal)
  (deeper : ∀ {depth : Nat} {upper lower : NodeId}, edge upper lower → found depth lower →
    found (depth + 1) upper)
  (inside : ∀ {upper lower : NodeId}, edge upper lower → upper < bound)

include here deeper inside

/-- A chain that avoids the nodes above it has room for as many nodes as there are. -/
theorem found_of_avoiding {depth : Nat} {id : NodeId} (above : List NodeId) (different : above.Nodup)
    (known : above ⊆ List.range bound) (room : bound ≤ depth + above.length)
    (chain : Relation.ReflTransGen (fun upper lower => edge upper lower ∧ upper ∉ above) id goal) :
    found (depth + 1) id := by
  induction depth generalizing id above with
  | zero =>
      rcases reflTransGen_avoiding chain with rfl | ⟨lower, ⟨below, absent⟩, -⟩
      · exact here 0
      exfalso
      have listed : (id :: above) ⊆ List.range bound :=
        List.cons_subset.mpr ⟨List.mem_range.mpr (inside below), known⟩
      have short := (List.subperm_of_subset (List.nodup_cons.mpr ⟨absent, different⟩) listed).length_le
      rw [List.length_cons, List.length_range] at short
      omega
  | succ depth induction =>
      rcases reflTransGen_avoiding chain with rfl | ⟨lower, ⟨below, absent⟩, rest⟩
      · exact here (depth + 1)
      refine deeper below (induction (id :: above) (List.nodup_cons.mpr ⟨absent, different⟩)
        (List.cons_subset.mpr ⟨List.mem_range.mpr (inside below), known⟩) ?_ ?_)
      · rw [List.length_cons]
        omega
      · refine Relation.ReflTransGen.mono (fun upper lower edge => ⟨edge.1.1, fun listed => ?_⟩) _ _ rest
        rcases List.mem_cons.mp listed with same | higher
        · exact edge.2 same
        · exact edge.1.2 higher

/-- A search as deep as there are nodes finds whatever a chain leads to. -/
theorem found_of_chain {id : NodeId} (chain : Relation.ReflTransGen edge id goal) :
    found (bound + 1) id := by
  refine found_of_avoiding found here deeper inside [] List.nodup_nil (List.nil_subset _) (Nat.le_refl _) ?_
  exact Relation.ReflTransGen.mono (fun _ _ below => ⟨below, List.not_mem_nil⟩) _ _ chain

end Search

/-- A walk meets exactly what can be reached. -/
theorem mem_walk_iff {id : NodeId} : id ∈ tree.walk ↔ tree.Reaches root id := by
  refine ⟨reaches_of_mem_walkFrom, fun reaches => ?_⟩
  exact found_of_chain (fun depth upper => id ∈ tree.walkFrom depth upper)
    (fun _ => mem_walkFrom_succ.mpr (.inl rfl))
    (fun below met => mem_walkFrom_succ.mpr (.inr ⟨_, below, met⟩)) Below.lt reaches

end ScriptTree
end NwScript
