import NwScript.Script.Tree

/-!
# Cleanup of a tree

Five rules bring the statements of every body into the shape that a script has when it is written by
hand.  Each rule either gives the changed tree or does not apply, and a cleanup counts the rules that
applied.  Bodies are visited once, each before the bodies inside it.
-/

namespace NwScript
namespace ScriptTree

/-- Apply a rule at each of some places in turn and count how often it applied. -/
def applyAll {α : Type} (rule : ScriptTree → α → Option ScriptTree) :
    List α → ScriptTree → ScriptTree × Nat
  | [], tree => (tree, 0)
  | place :: places, tree =>
      match rule tree place with
      | some changed =>
          let (cleaned, count) := applyAll rule places changed
          (cleaned, count + 1)
      | none => applyAll rule places tree

/-- A run of a rule that counts nothing changes nothing. -/
theorem applyAll_of_count_eq_zero {α : Type} {rule : ScriptTree → α → Option ScriptTree}
    {places : List α} {tree : ScriptTree} (none_applied : (applyAll rule places tree).2 = 0) :
    (applyAll rule places tree).1 = tree := by
  induction places generalizing tree with
  | nil => rfl
  | cons place places induction =>
      unfold applyAll at none_applied ⊢
      split
      · rename_i applied
        simp [applied] at none_applied
      · rename_i refused
        rw [refused] at none_applied
        exact induction none_applied

/-- A rule that applies nowhere changes nothing. -/
theorem applyAll_eq_self {α : Type} {rule : ScriptTree → α → Option ScriptTree} {places : List α}
    {tree : ScriptTree} (refuses : ∀ place ∈ places, rule tree place = none) :
    applyAll rule places tree = (tree, 0) := by
  induction places with
  | nil => rfl
  | cons place places induction =>
      rw [applyAll, refuses place List.mem_cons_self]
      exact induction fun other listed => refuses other (List.mem_cons_of_mem _ listed)

/-- A body that holds one nested scope and nothing else takes over its statements. -/
def absorb? (tree : ScriptTree) (node : NodeId) : Option ScriptTree :=
  match tree.children node with
  | [inner] =>
      if (tree.node inner).isBlock then
        some ((tree.children inner).foldl
          (fun tree statement => (tree.detach statement).1.append node statement)
          (tree.detach inner).1)
      else
        none
  | _ => none

/-- An expression among the statements of a body becomes a statement. -/
def promote? (node : NodeId) (tree : ScriptTree) (child : NodeId) : Option ScriptTree :=
  if (tree.node child).isExpression then
    match tree.detach child with
    | (detached, some index) =>
        let (tree, statement) := detached.add (.statement child)
        some (tree.insert node index statement)
    | (_, none) => none
  else
    none

/-- A declaration whose call result has not been claimed is an ordinary declaration. -/
def settle? (tree : ScriptTree) (child : NodeId) : Option ScriptTree :=
  match tree.node child with
  | .declaration var init true => some (tree.modify child fun _ => .declaration var init false)
  | _ => none

/-- The member that a statement declares without a value, and the aggregate that holds it. -/
def memberDeclaration? (tree : ScriptTree) (statement : NodeId) : Option (VarId × VarId) :=
  match tree.node statement with
  | .declaration var none _ => (tree.vars.parent? var).map fun parent => (var, parent)
  | _ => none

/-- The members of an aggregate that statements declare one after another. -/
def declaredMembers (tree : ScriptTree) (aggregate : VarId) : List NodeId → List VarId
  | [] => []
  | statement :: rest =>
      match tree.memberDeclaration? statement with
      | some (member, parent) =>
          if parent = aggregate then member :: declaredMembers tree aggregate rest else []
      | none => []

/-- Declarations of all members of an aggregate in a row become one declaration. -/
def merge? (node : NodeId) (tree : ScriptTree) (index : Nat) : Option ScriptTree :=
  match (tree.children node).drop index with
  | [] => none
  | statement :: rest =>
      match tree.memberDeclaration? statement with
      | none => none
      | some (_, aggregate) =>
          let members := tree.vars.members aggregate
          let run := (statement :: rest).take members.length
          if members = [] ∨ tree.declaredMembers aggregate run ≠ members then
            none
          else
            let (added, declaration) := tree.add (.declaration aggregate none false)
            some ((added.replaceAll declaration run).declareWhole aggregate declaration)

/-- Evaluating an expression mentions a variable or one of its members. -/
def mentionsFrom (tree : ScriptTree) (var : VarId) : (depth : Nat) → NodeId → Bool
  | 0, _ => false
  | depth + 1, id =>
      match tree.node id with
      | .reference used => used = var || tree.vars.root used = var
      | node => node.operands.any (mentionsFrom tree var depth)

/-- Evaluating an expression mentions a variable or one of its members. -/
def mentions (tree : ScriptTree) (id : NodeId) (var : VarId) : Bool :=
  tree.mentionsFrom var (tree.size + 1) id

/-- The value that a statement assigns to a variable as a whole. -/
def assignedValue? (tree : ScriptTree) (statement : NodeId) (var : VarId) : Option NodeId :=
  match tree.node statement with
  | .statement expression =>
      match tree.node expression with
      | .assign target value => if tree.node target = .reference var then some value else none
      | _ => none
  | _ => none

/-- A declaration takes the value that the next statement assigns, unless that value mentions the
variable. -/
def foldInitializer? (node : NodeId) (tree : ScriptTree) (index : Nat) : Option ScriptTree :=
  match (tree.children node).drop index with
  | declaration :: next :: _ =>
      match tree.node declaration with
      | .declaration var none pending =>
          match tree.assignedValue? next var with
          | some value =>
              if tree.mentions value var then
                none
              else
                let initialized := tree.modify declaration fun _ =>
                  .declaration var (some value) pending
                some ((initialized.setParent value (some declaration)).detach next).1
          | none => none
      | _ => none
  | _ => none

/-- A step that counts what it changes. -/
abbrev Tidying := ScriptTree → ScriptTree × Nat

/-- One counted step behind another. -/
def Tidying.andThen (first second : Tidying) : Tidying := fun tree =>
  let (between, before) := first tree
  let (cleaned, behind) := second between
  (cleaned, before + behind)

/-- Absorb nested scopes until a body no longer consists of one; each absorbs a different node. -/
def flatten (node : NodeId) : Tidying := fun tree =>
  applyAll (fun tree _ => tree.absorb? node) (List.range tree.size) tree

/-- Turn the expressions of a body into statements. -/
def promote (node : NodeId) : Tidying := fun tree =>
  applyAll (promote? node) (tree.children node) tree

/-- Settle the declarations of a body. -/
def settle (node : NodeId) : Tidying := fun tree =>
  applyAll settle? (tree.children node) tree

/-- Merge the declarations of members in a body; places behind the last statement are void. -/
def mergeMembers (node : NodeId) : Tidying := fun tree =>
  applyAll (merge? node) (List.range (tree.children node).length) tree

/-- Fold assignments of a body into the declarations before them. -/
def foldInitializers (node : NodeId) : Tidying := fun tree =>
  applyAll (foldInitializer? node) (List.range (tree.children node).length) tree

/-- Apply every rule to one body. -/
def cleanBody (node : NodeId) : Tidying := fun tree =>
  if (tree.node node).body?.isSome then
    ((((Tidying.andThen (flatten node) (promote node)).andThen (settle node)).andThen
      (mergeMembers node)).andThen (foldInitializers node)) tree
  else
    (tree, 0)

/-- Apply every rule to some bodies in turn. -/
def cleanAll : List NodeId → Tidying
  | [] => fun tree => (tree, 0)
  | node :: nodes => Tidying.andThen (cleanBody node) (cleanAll nodes)

/-- Apply every rule to every body that can be reached; gives the tree and the number of changes. -/
def cleanup (tree : ScriptTree) : ScriptTree × Nat :=
  cleanAll tree.walk tree

end ScriptTree
end NwScript
