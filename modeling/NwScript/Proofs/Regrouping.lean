import Mathlib.Data.List.Forall2
import NwScript.Proofs.SourceReader

/-!
# Regrouped expressions

A chain of one associative operator says the same however it is grouped, `-n` is a negative literal or a
negated one, and a deferred argument is the expression it evaluates.  Expressions that differ in nothing
else agree in how many of their right operands are blocked, that is, led by another operator of the same
strength that keeps them from joining the operator before them.
-/

namespace NwScript

namespace Operator

/-- How tightly an operator binds. -/
def precedence : Operator → Precedence
  | .binary op => op.precedence
  | .logical op => op.precedence

/-- The written operator. -/
def symbol : Operator → String
  | .binary op => op.symbol
  | .logical op => op.symbol

/-- An operator of which chains may be regrouped. -/
def isAssociative : Operator → Bool
  | .binary .bitOr | .binary .bitXor | .binary .bitAnd | .binary .add | .binary .mul => true
  | .logical _ => true
  | _ => false

@[simp]
theorem apply_inj {op other : Operator} {left right first second : Expression} :
    op.apply left right = other.apply first second ↔
      op = other ∧ left = first ∧ right = second := by
  cases op <;> cases other <;> simp [apply]

end Operator

namespace Expression

/-- Two expressions differ at most in the grouping of chains of one associative operator, in the spelling
of negative literals and in what is deferred. -/
inductive Same : Expression → Expression → Prop where
  /-- Any expression is the same as itself. -/
  | refl (value : Expression) : Same value value
  /-- The order does not matter. -/
  | symm {left right : Expression} : Same left right → Same right left
  /-- Differences add up. -/
  | trans {left middle right : Expression} : Same left middle → Same middle right → Same left right
  /-- A chain may be regrouped. -/
  | regroup (op : Operator) (associative : op.isAssociative) (first second third : Expression) :
      Same (op.apply first (op.apply second third)) (op.apply (op.apply first second) third)
  /-- A negative literal is a negated one. -/
  | negative (magnitude : Nat) :
      Same (literal (.int (-(magnitude + 1)))) (unary .negate (literal (.int (magnitude + 1))))
  /-- A deferred argument is the expression it evaluates. -/
  | deferred (value : Expression) : Same (inlined value) value
  /-- The aggregate of a member may differ. -/
  | member {left right : Expression} (field : String) :
      Same left right → Same (member left field) (member right field)
  /-- Components may differ. -/
  | vector {x y z a b c : Expression} :
      Same x a → Same y b → Same z c → Same (vector x y z) (vector a b c)
  /-- Target and value may differ. -/
  | assign {target value other changed : Expression} :
      Same target other → Same value changed → Same (assign target value) (assign other changed)
  /-- Operands may differ. -/
  | operation (op : Operator) {left right first second : Expression} :
      Same left first → Same right second → Same (op.apply left right) (op.apply first second)
  /-- The operand may differ. -/
  | unary (op : UnaryOp) {left right : Expression} :
      Same left right → Same (unary op left) (unary op right)
  /-- The target of a step may differ. -/
  | step (op : StepOp) (before : Bool) {left right : Expression} :
      Same left right → Same (step op before left) (step op before right)
  /-- An argument may differ. -/
  | argument (name : String) (before after : List Expression) {left right : Expression} :
      Same left right →
        Same (call name (before ++ left :: after)) (call name (before ++ right :: after))

theorem Same.call (name : String) {values others : List Expression}
    (pointwise : List.Forall₂ Same values others) (before : List Expression) :
    Same (Expression.call name (before ++ values)) (Expression.call name (before ++ others)) := by
  induction pointwise generalizing before with
  | nil => exact .refl _
  | @cons value other values others same _ induction =>
      have later := induction (before ++ [other])
      rw [List.append_assoc, List.append_assoc] at later
      exact (Same.argument name before values same).trans later

/-! ## Blocked operands -/

/-- A right operand cannot join the operator before it: it is, or its chain begins with, another
operator of the same strength. -/
def isBlocked (op : Operator) : Expression → Bool
  | inlined value => isBlocked op value
  | binary inner left _ =>
      if op.isAssociative && op = .binary inner then isBlocked op left
      else inner.precedence = op.precedence
  | logical inner left _ =>
      if op.isAssociative && op = .logical inner then isBlocked op left
      else inner.precedence = op.precedence
  | _ => false

mutual

/-- How many right operands are blocked. -/
def blocked : Expression → Nat
  | word _ => 0
  | literal _ => 0
  | inlined value => value.blocked
  | member base _ => base.blocked
  | vector x y z => x.blocked + y.blocked + z.blocked
  | assign target value => target.blocked + value.blocked
  | binary op left right =>
      left.blocked + right.blocked + (right.isBlocked (.binary op)).toNat
  | logical op left right =>
      left.blocked + right.blocked + (right.isBlocked (.logical op)).toNat
  | unary _ operand => operand.blocked
  | step _ _ target => target.blocked
  | call _ arguments => allBlocked arguments

/-- How many right operands in some expressions are blocked. -/
def allBlocked : List Expression → Nat
  | [] => 0
  | value :: values => value.blocked + allBlocked values

end

theorem isBlocked_apply (op inner : Operator) (left right : Expression) :
    (inner.apply left right).isBlocked op =
      if op.isAssociative && op = inner then left.isBlocked op
      else inner.precedence = op.precedence := by
  cases inner <;> rfl

theorem blocked_apply (op : Operator) (left right : Expression) :
    (op.apply left right).blocked = left.blocked + right.blocked + (right.isBlocked op).toNat := by
  cases op <;> rfl

theorem allBlocked_append (values others : List Expression) :
    allBlocked (values ++ others) = allBlocked values + allBlocked others := by
  induction values with
  | nil => rw [List.nil_append, allBlocked, Nat.zero_add]
  | cons value values induction =>
      rw [List.cons_append, allBlocked, allBlocked, induction, Nat.add_assoc]

/-- The same expressions are blocked by the same operators. -/
theorem Same.isBlocked_eq {left right : Expression} (same : Same left right) (op : Operator) :
    left.isBlocked op = right.isBlocked op := by
  induction same with
  | symm _ induction => exact induction.symm
  | trans _ _ first second => exact first.trans second
  | regroup inner associative first second third =>
      simp only [isBlocked_apply]
      by_cases same : op.isAssociative && op = inner
      · simp only [if_pos same]
      · simp only [if_neg same]
  | operation inner _ _ first _ =>
      simp only [isBlocked_apply, first]
  | _ => rfl

/-- The same expressions have the same number of blocked operands. -/
theorem Same.blocked_eq {left right : Expression} (same : Same left right) :
    left.blocked = right.blocked := by
  induction same with
  | refl value => rfl
  | symm _ induction => exact induction.symm
  | trans _ _ first second => exact first.trans second
  | regroup op associative first second third =>
      have joins : (op.apply second third).isBlocked op = second.isBlocked op := by
        rw [isBlocked_apply, if_pos (by simp [associative])]
      rw [blocked_apply, blocked_apply, blocked_apply, blocked_apply, joins]
      omega
  | negative magnitude => rfl
  | deferred value => rfl
  | member field _ induction => exact induction
  | vector _ _ _ first second third => simp only [blocked, first, second, third]
  | assign _ _ first second => simp only [blocked, first, second]
  | operation op _ second_same first second =>
      rw [blocked_apply, blocked_apply, first, second, second_same.isBlocked_eq op]
  | unary op _ induction => exact induction
  | step op before _ induction => exact induction
  | argument name before after _ induction =>
      rw [blocked, blocked, allBlocked_append, allBlocked_append, allBlocked, allBlocked, induction]

end Expression
end NwScript
