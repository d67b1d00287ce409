import NwScript.Proofs.CleanupRules
import NwScript.Proofs.VariableNames
import NwScript.Recovery.Subroutine

/-!
# Finished trees

When a recovery is complete its variables get names and calls lose the tails of arguments that equal
their defaults.  Neither changes which statements there are, where they stand or which variables
belong together.
-/

namespace NwScript
namespace VarTable

section Names

variable {table : VarTable}

/-- Naming a variable changes nothing else of it. -/
theorem Naming.exists_name_eq (naming : Naming) (entry : Variable) :
    ∃ name, (naming.name entry).1 = { entry with name } := by
  by_cases named : IsNamed entry
  · exact ⟨_, congrArg Prod.fst (naming.name_of_isNamed named)⟩
  · exact ⟨entry.name, congrArg Prod.fst (naming.name_of_not_isNamed named)⟩

/-- Names change nothing else of a variable. -/
theorem exists_get?_assignNames {id : VarId} {entry : Variable} (found : table.get? id = some entry) :
    ∃ name, table.assignNames.get? id = some { entry with name } := by
  obtain ⟨name, same⟩ := (table.namedBefore id).exists_name_eq entry
  exact ⟨name, by rw [get?_assignNames, found, Option.map_some, same]⟩

theorem get?_assignNames_eq_none {id : VarId} (unknown : table.get? id = none) :
    table.assignNames.get? id = none := by
  rw [get?_assignNames, unknown, Option.map_none]

theorem length_nameAll (naming : Naming) (entries : List Variable) :
    (naming.nameAll entries).length = entries.length := by
  induction entries generalizing naming with
  | nil => rfl
  | cons entry entries induction => simp [Naming.nameAll, induction]

theorem alike_assignNames (table : VarTable) : table.Alike table.assignNames := by
  refine ⟨?_, ?_, ?_⟩
  · simp [assignNames, size, length_nameAll]
  · funext id
    rw [parent?, parent?]
    cases found : table.get? id with
    | none => rw [get?_assignNames_eq_none found]
    | some entry =>
        obtain ⟨name, named⟩ := exists_get?_assignNames found
        rw [named]
        rfl
  · funext id
    rw [members, members]
    cases found : table.get? id with
    | none => rw [get?_assignNames_eq_none found]
    | some entry =>
        obtain ⟨name, named⟩ := exists_get?_assignNames found
        rw [named]
        rfl

end Names

end VarTable

namespace ScriptTree

section Arguments

variable {node : Node} {first second : Nat}

theorem keepArguments_keepArguments (first second : Nat) (node : Node) :
    keepArguments second (keepArguments first node) = keepArguments (min second first) node := by
  cases node with
  | action action name arguments => simp [keepArguments, List.take_take]
  | _ => rfl

theorem keepArguments_length (node : Node) : keepArguments node.operands.length node = node := by
  cases node with
  | action action name arguments => simp [keepArguments, Node.operands]
  | _ => rfl

theorem body?_keepArguments (kept : Nat) (node : Node) : (keepArguments kept node).body? = node.body? := by
  cases node <;> rfl

theorem isExpression_keepArguments (kept : Nat) (node : Node) :
    (keepArguments kept node).isExpression = node.isExpression := by
  cases node <;> rfl

theorem operands_keepArguments (kept : Nat) (node : Node) :
    (keepArguments kept node).operands ⊆ node.operands := by
  cases node with
  | action action name arguments => exact List.take_subset _ _
  | _ => exact List.Subset.refl _

theorem keepArguments_eq_statement {kept : Nat} {value : NodeId} :
    keepArguments kept node = .statement value ↔ node = .statement value := by
  cases node <;> simp [keepArguments]

end Arguments

/-- Calls lose arguments and variables get names, and nothing else changes. -/
structure Finishes (before after : ScriptTree) : Prop where
  /-- No node is added. -/
  size : after.size = before.size
  /-- Links stay. -/
  parents : after.parents = before.parents
  /-- Calls lose arguments. -/
  node : ∀ id, ∃ kept, after.node id = keepArguments kept (before.node id)
  /-- Aggregates keep their members. -/
  vars : before.vars.Alike after.vars

namespace Finishes

variable {before middle after : ScriptTree}

theorem refl (tree : ScriptTree) : tree.Finishes tree :=
  ⟨rfl, rfl, fun id => ⟨_, (keepArguments_length (tree.node id)).symm⟩, .refl _⟩

theorem trans (first : before.Finishes middle) (second : middle.Finishes after) :
    before.Finishes after where
  size := second.size.trans first.size
  parents := second.parents.trans first.parents
  node := by
    intro id
    obtain ⟨earlier, there⟩ := first.node id
    obtain ⟨later, here⟩ := second.node id
    exact ⟨min later earlier, by rw [here, there, keepArguments_keepArguments]⟩
  vars := first.vars.trans second.vars

theorem modify (tree : ScriptTree) (id : NodeId) (kept : Nat) :
    tree.Finishes (tree.modify id (keepArguments kept)) := by
  refine ⟨size_modify _ _ _, rfl, fun other => ?_, .refl _⟩
  by_cases here : other = id
  · subst here
    by_cases inside : other < tree.size
    · exact ⟨kept, node_modify_self inside _⟩
    · have outside := Nat.not_lt.mp inside
      exact ⟨kept, by
        rw [node_of_le ((size_modify _ _ _).trans_le outside), node_of_le outside]
        rfl⟩
  · exact ⟨_, (node_modify_of_ne (Ne.symm here) _).trans (keepArguments_length _).symm⟩

theorem omitDefaults (tree : ScriptTree) (catalog : ActionCatalog) :
    tree.Finishes (tree.omitDefaults catalog) := by
  rw [omitDefaults_eq_cutAll]
  generalize tree.cuts catalog = cuts
  induction cuts generalizing tree with
  | nil => exact .refl tree
  | cons cut cuts induction => exact (modify tree cut.1 cut.2).trans (induction _)

variable (finishes : before.Finishes after)

include finishes

theorem children (id : NodeId) : after.children id = before.children id := by
  obtain ⟨kept, here⟩ := finishes.node id
  rw [ScriptTree.children, ScriptTree.children, here, body?_keepArguments]

theorem isExpression (id : NodeId) : (after.node id).isExpression = (before.node id).isExpression := by
  obtain ⟨kept, here⟩ := finishes.node id
  rw [here, isExpression_keepArguments]

theorem owns (id : NodeId) : (after.node id).body? = (before.node id).body? := by
  obtain ⟨kept, here⟩ := finishes.node id
  rw [here, body?_keepArguments]

theorem operands (id : NodeId) : (after.node id).operands ⊆ (before.node id).operands := by
  obtain ⟨kept, here⟩ := finishes.node id
  rw [here]
  exact operands_keepArguments kept _

end Finishes

/-- Finishing a tree names its variables and omits arguments. -/
theorem finishes_finish (input : RecoveryInput) (tree : ScriptTree) :
    tree.Finishes (input.finish tree) := by
  have named : tree.Finishes { tree with vars := tree.vars.assignNames } :=
    ⟨rfl, rfl, fun id => ⟨_, (keepArguments_length (tree.node id)).symm⟩, tree.vars.alike_assignNames⟩
  unfold RecoveryInput.finish
  dsimp only
  split
  · exact named.trans (.omitDefaults _ _)
  · exact named

end ScriptTree
end NwScript
