import NwScript.Bytecode.ActionCatalog
import NwScript.Script.Reading

/-!
# Default arguments

An argument that spells its parameter's default value says nothing, so a call can leave out a tail of
such arguments.  Which ones are left out is decided on the whole tree before any call is changed.
-/

namespace NwScript
namespace ScriptTree

/-- An argument is written like the default value of its parameter. -/
def isDefault (tree : ScriptTree) (defaults : List (Option String)) (index : Nat)
    (argument : NodeId) : Bool :=
  defaults[index]?.join = some (tree.render argument)

/-- How many of some arguments are kept, where `index` is the number of arguments before them. -/
def keptFrom (tree : ScriptTree) (defaults : List (Option String)) (index : Nat) :
    List NodeId → Nat
  | [] => 0
  | argument :: arguments =>
      match keptFrom tree defaults (index + 1) arguments with
      | 0 => if tree.isDefault defaults index argument then 0 else 1
      | kept + 1 => kept + 2

theorem keptFrom_le_length (tree : ScriptTree) (defaults : List (Option String)) (index : Nat)
    (arguments : List NodeId) : tree.keptFrom defaults index arguments ≤ arguments.length := by
  induction arguments generalizing index with
  | nil => simp [keptFrom]
  | cons argument arguments induction =>
      have bound := induction (index + 1)
      unfold keptFrom
      split
      · split <;> simp
      · rename_i kept tail
        rw [tail] at bound
        simpa using bound

/-- How many arguments an action call keeps; none for any other node. -/
def keptArguments? (tree : ScriptTree) (catalog : ActionCatalog) (id : NodeId) : Option Nat :=
  match tree.node id with
  | .action action _ arguments =>
      (catalog.find? action).map fun signature => tree.keptFrom signature.defaults 0 arguments
  | _ => none

/-- Keep the first arguments of an action call. -/
def keepArguments (kept : Nat) : Node → Node
  | .action action name arguments => .action action name (arguments.take kept)
  | node => node

/-- Leave out the tails of arguments that equal their defaults. -/
def omitDefaults (tree : ScriptTree) (catalog : ActionCatalog) : ScriptTree :=
  let cuts := tree.walk.filterMap fun id =>
    (tree.keptArguments? catalog id).map fun kept => (id, kept)
  cuts.foldl (fun tree cut => tree.modify cut.1 (keepArguments cut.2)) tree

end ScriptTree
end NwScript
