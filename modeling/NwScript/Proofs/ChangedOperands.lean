import Mathlib.Data.List.Basic
import NwScript.Script.Node

/-!
# Changed operands

To change the operands of an expression is to change them one after another and to put the results in
their places, whatever kind of expression it is.  Deferred arguments and statements stay as they are.
-/

namespace NwScript

namespace Node

variable {node : Node} {copies : List NodeId}

/-- An expression other than a deferred argument. -/
def isPlainExpression (node : Node) : Bool :=
  node.isExpression && !node.isClosure

theorem isPlainExpression_iff :
    node.isPlainExpression = true ↔ node.isExpression = true ∧ node.isClosure = false := by
  rw [isPlainExpression, Bool.and_eq_true, Bool.not_eq_true']

theorem body?_eq_none (plain : node.isPlainExpression) : node.body? = none := by
  cases node <;> first | rfl | cases plain

/-- The expression with as many other operands as it has. -/
def withOperands (copies : List NodeId) (node : Node) : Node :=
  let copy (place : Nat) := copies.getD place 0
  match node with
  | member _ field => member (copy 0) field
  | vector _ _ _ => vector (copy 0) (copy 1) (copy 2)
  | assign _ _ => assign (copy 0) (copy 1)
  | binary op _ _ => binary op (copy 0) (copy 1)
  | logical op _ _ => logical op (copy 0) (copy 1)
  | unary op _ => unary op (copy 0)
  | step op before _ => step op before (copy 0)
  | action id name _ => action id name copies
  | call sub name _ => call sub name copies
  | node => node

theorem operands_withOperands (plain : node.isPlainExpression)
    (many : copies.length = node.operands.length) : (node.withOperands copies).operands = copies := by
  cases node with
  | action _ _ _ | call _ _ _ => rfl
  | literal _ | reference _ | placeholder _ => exact (List.length_eq_zero_iff.mp many).symm
  | member _ _ | unary _ _ | step _ _ _ =>
      obtain ⟨first, rfl⟩ := List.length_eq_one_iff.mp many
      rfl
  | assign _ _ | binary _ _ _ | logical _ _ _ =>
      obtain ⟨first, second, rfl⟩ := List.length_eq_two.mp many
      rfl
  | vector _ _ _ =>
      obtain ⟨first, second, third, rfl⟩ := List.length_eq_three.mp many
      rfl
  | _ => cases plain

theorem isPlainExpression_withOperands (copies : List NodeId) (node : Node) :
    (node.withOperands copies).isPlainExpression = node.isPlainExpression := by
  cases node <;> rfl

/-- The operands of an expression are changed one after another. -/
theorem mapOperandsM_eq {m : Type → Type} [Monad m] [LawfulMonad m] (change : NodeId → m NodeId)
    (plain : node.isPlainExpression) : node.mapOperandsM change =
      node.operands.mapM change >>= fun copies => pure (node.withOperands copies) := by
  cases node with
  | branch | whileLoop | doLoop | switch | case | declaration | statement | ret => cases plain
  | _ => simp [mapOperandsM, operands, withOperands]

/-- A deferred argument or a statement stays as it is. -/
theorem mapOperandsM_eq_pure {m : Type → Type} [Monad m] (change : NodeId → m NodeId)
    (other : node.isPlainExpression = false) : node.mapOperandsM change = pure node := by
  cases node <;> first | rfl | cases other

end Node
end NwScript
