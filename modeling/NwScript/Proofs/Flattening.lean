import NwScript.Proofs.Regrouping

/-!
# Flat expressions

Without parentheses around right operands that take a chain further, operators of one strength group to
the left.  What comes of an expression is its flat form: a right operand of a chain hands its operators
over to the left, whichever they are.  That says the same exactly if no such operand is blocked.
-/

namespace NwScript
namespace Expression

/-- The operator of an operation. -/
def operator? : Expression → Option Operator
  | inlined value => value.operator?
  | binary op _ _ => some (.binary op)
  | logical op _ _ => some (.logical op)
  | _ => none

/-- An operation takes a chain of an operator further. -/
def chains (op : Operator) (value : Expression) : Bool :=
  op.isAssociative && value.operator? = some op

/-- Change the expression in front of the operators of one strength. -/
def graft (change : Expression → Expression) (strength : Precedence) : Expression → Expression
  | inlined value => graft change strength value
  | binary op left right =>
      if op.precedence = strength then binary op (graft change strength left) right
      else change (binary op left right)
  | logical op left right =>
      if op.precedence = strength then logical op (graft change strength left) right
      else change (logical op left right)
  | value => change value

/-- An operation, of which the operators of a chain group to the left. -/
def join (op : Operator) (left right : Expression) : Expression :=
  if right.chains op then graft (op.apply left) op.precedence right else op.apply left right

mutual

/-- The expression with chains that group to the left, whichever operators of their strength lead them,
without signs on literals and without deferred arguments. -/
def flat : Expression → Expression
  | word name => word name
  | literal (.int value) =>
      if value < 0 then unary .negate (literal (.int (-value))) else literal (.int value)
  | literal value => literal value
  | inlined value => value.flat
  | member base field => member base.flat field
  | vector x y z => vector x.flat y.flat z.flat
  | assign target value => assign target.flat value.flat
  | binary op left right => join (.binary op) left.flat right.flat
  | logical op left right => join (.logical op) left.flat right.flat
  | unary op operand => unary op operand.flat
  | step op before target => step op before target.flat
  | call name arguments => call name (flats arguments)

/-- The flat forms of some expressions. -/
def flats : List Expression → List Expression
  | [] => []
  | value :: values => value.flat :: flats values

end

mutual

/-- How many right operands take a chain further although they are blocked. -/
def lost : Expression → Nat
  | word _ => 0
  | literal _ => 0
  | inlined value => value.lost
  | member base _ => base.lost
  | vector x y z => x.lost + y.lost + z.lost
  | assign target value => target.lost + value.lost
  | binary op left right =>
      left.lost + right.lost + (right.chains (.binary op) && right.isBlocked (.binary op)).toNat
  | logical op left right =>
      left.lost + right.lost + (right.chains (.logical op) && right.isBlocked (.logical op)).toNat
  | unary _ operand => operand.lost
  | step _ _ target => target.lost
  | call _ arguments => allLost arguments

/-- How many right operands in some expressions take a chain further although they are blocked. -/
def allLost : List Expression → Nat
  | [] => 0
  | value :: values => value.lost + allLost values

end

/-- No right operand that takes a chain further is blocked. -/
def IsClear (value : Expression) : Prop :=
  value.lost = 0

instance (value : Expression) : Decidable value.IsClear :=
  inferInstanceAs (Decidable (value.lost = 0))

variable {op inner : Operator} {left right value : Expression} {strength : Precedence}
  {change : Expression → Expression}

@[simp]
theorem operator?_apply : (op.apply left right).operator? = some op := by
  cases op <;> rfl

theorem graft_apply : graft change strength (op.apply left right) =
    if op.precedence = strength then op.apply (graft change strength left) right
    else change (op.apply left right) := by
  cases op <;> rfl

theorem flat_apply : (op.apply left right).flat = join op left.flat right.flat := by
  cases op <;> rfl

theorem chains_apply : (inner.apply left right).chains op ↔ op.isAssociative ∧ op = inner := by
  simp only [chains, operator?_apply, Bool.and_eq_true, decide_eq_true_eq, Option.some.injEq]
  exact and_congr_right fun _ => eq_comm

theorem lost_apply : (op.apply left right).lost =
    left.lost + right.lost + (right.chains op && right.isBlocked op).toNat := by
  cases op <;> rfl

/-! ## What grafting keeps -/

/-- An expression is deferred, or an operation, or there is nothing in front of it. -/
@[elab_as_elim]
theorem front_induction {motive : Expression → Prop}
    (deferred : ∀ value, motive value → motive (inlined value))
    (operation : ∀ op left right, motive left → motive (Operator.apply op left right))
    (single : ∀ value, value.operator? = none → (∀ op, value.isBlocked op = false) →
      (∀ change strength, graft change strength value = change value) → motive value) :
    ∀ value, motive value
  | inlined value => deferred value (front_induction deferred operation single value)
  | binary op left right =>
      operation (.binary op) left right (front_induction deferred operation single left)
  | logical op left right =>
      operation (.logical op) left right (front_induction deferred operation single left)
  | word _ | literal _ | member _ _ | vector _ _ _ | assign _ _ | unary _ _ | step _ _ _ | call _ _ =>
      single _ rfl (fun _ => rfl) fun _ _ => rfl

/-- Grafting keeps the operator. -/
theorem graft_of_operator? (found : value.operator? = some op) (same : op.precedence = strength) :
    ∃ first second, graft change strength value = op.apply first second := by
  induction value using front_induction with
  | deferred value induction => exact induction found
  | operation inner left right _ =>
      rw [operator?_apply, Option.some.injEq] at found
      subst found
      exact ⟨_, right, by rw [graft_apply, if_pos same]⟩
  | single value single _ _ =>
      rw [single] at found
      cases found

theorem chains_iff : value.chains op ↔ op.isAssociative ∧ value.operator? = some op := by
  rw [chains, Bool.and_eq_true, decide_eq_true_eq]

/-- A flat operation is one of the same operator. -/
theorem join_eq_apply (op : Operator) (left right : Expression) :
    ∃ first second, join op left right = op.apply first second := by
  unfold join
  split
  · rename_i chained
    exact graft_of_operator? (chains_iff.mp chained).2 rfl
  · exact ⟨left, right, rfl⟩

@[simp]
theorem operator?_join : (join op left right).operator? = some op := by
  obtain ⟨first, second, known⟩ := join_eq_apply op left right
  rw [known, operator?_apply]

/-- The flat form of an expression has its operator. -/
theorem operator?_flat : (value : Expression) → value.flat.operator? = value.operator?
  | inlined value => operator?_flat value
  | binary _ _ _ => operator?_join
  | logical _ _ _ => operator?_join
  | literal (.int value) => by
      rw [flat]
      split <;> rfl
  | literal (.float _) | literal (.string _) | literal (.object _) => rfl
  | word _ | member _ _ | vector _ _ _ | assign _ _ | unary _ _ | step _ _ _ | call _ _ => rfl

@[simp]
theorem chains_flat : value.flat.chains op = value.chains op := by
  rw [chains, chains, operator?_flat]

/-- Grafts follow each other down to the front of the operators. -/
theorem graft_graft (same : op.precedence = strength) (left value : Expression) :
    graft change strength (graft (op.apply left) strength value) =
      graft (op.apply (graft change strength left)) strength value := by
  induction value using front_induction with
  | deferred value induction => exact induction
  | operation inner first second induction =>
      rw [graft_apply, graft_apply]
      split
      · rename_i strong
        rw [graft_apply, if_pos strong, induction]
      · rw [graft_apply, if_pos same]
  | single value _ _ alone => rw [alone, alone, graft_apply, if_pos same]

/-- What is grafted onto an operation is grafted onto its left operand. -/
theorem graft_join (same : op.precedence = strength) :
    graft change strength (join op left right) = join op (graft change strength left) right := by
  subst same
  unfold join
  split
  · exact graft_graft rfl left right
  · rw [graft_apply, if_pos rfl]

/-! ## Blocked operands of flat expressions -/

/-- An operand that takes no chain further is blocked by an operator of its own strength. -/
theorem isBlocked_of_not_chains (other : ¬value.chains op) :
    value.isBlocked op = value.operator?.any fun inner => inner.precedence = op.precedence := by
  induction value using front_induction with
  | deferred value induction => exact induction other
  | operation inner left right _ =>
      rw [chains_apply] at other
      rw [isBlocked_apply, if_neg (by simpa using other), operator?_apply, Option.any_some]
  | single value single free _ => rw [free, single, Option.any_none]

theorem isBlocked_of_precedence (found : value.operator? = some inner)
    (other : inner.precedence ≠ op.precedence) : value.isBlocked op = false := by
  have different : ¬value.chains op := by
    intro chained
    rw [(chains_iff.mp chained).2, Option.some.injEq] at found
    exact other (by rw [found])
  rw [isBlocked_of_not_chains different, found, Option.any_some, decide_eq_false other]

/-- Grafting an operator in front of operators of its strength blocks no operand. -/
theorem blocked_graft (same : op.precedence = strength) (left value : Expression) :
    (graft (op.apply left) strength value).blocked = left.blocked + value.blocked := by
  induction value using front_induction with
  | deferred value induction => exact induction
  | operation inner first second induction =>
      rw [graft_apply]
      split
      · rw [blocked_apply, blocked_apply, induction]
        omega
      · rename_i other
        rw [blocked_apply, isBlocked_of_precedence operator?_apply (by rwa [same]), Bool.toNat_false,
          Nat.add_zero]
  | single value _ free alone => rw [alone, blocked_apply, free, Bool.toNat_false, Nat.add_zero]

/-- In an operation of which the operators of a chain group to the left, only an operand of another
operator is blocked. -/
theorem blocked_join (op : Operator) (left right : Expression) :
    (join op left right).blocked = left.blocked + right.blocked +
      if right.chains op then 0 else (right.isBlocked op).toNat := by
  unfold join
  split
  · exact blocked_graft rfl left right
  · exact blocked_apply op left right

theorem isBlocked_flat (other : ¬value.chains op) : value.flat.isBlocked op = value.isBlocked op := by
  rw [isBlocked_of_not_chains other, isBlocked_of_not_chains (by rwa [chains_flat]), operator?_flat]

theorem blocked_flat_apply (op : Operator) (first : left.flat.blocked + left.lost = left.blocked)
    (second : right.flat.blocked + right.lost = right.blocked) :
    (op.apply left right).flat.blocked + (op.apply left right).lost =
      (op.apply left right).blocked := by
  rw [flat_apply, blocked_join, chains_flat, lost_apply, blocked_apply]
  cases chained : right.chains op with
  | true =>
      rw [if_pos rfl, Bool.true_and]
      omega
  | false =>
      rw [if_neg Bool.false_ne_true, isBlocked_flat (by simp [chained]), Bool.false_and,
        Bool.toNat_false]
      omega

mutual

/-- The flat form has as many fewer blocked operands as take a chain further. -/
theorem blocked_flat : (value : Expression) → value.flat.blocked + value.lost = value.blocked
  | word _ => rfl
  | literal (.int value) => by
      rw [flat]
      split <;> rfl
  | literal (.float _) | literal (.string _) | literal (.object _) => rfl
  | inlined value => blocked_flat value
  | member base _ => blocked_flat base
  | vector x y z => by
      have first := blocked_flat x
      have second := blocked_flat y
      have third := blocked_flat z
      simp only [flat, blocked, lost]
      omega
  | assign target value => by
      have first := blocked_flat target
      have second := blocked_flat value
      simp only [flat, blocked, lost]
      omega
  | binary op left right => blocked_flat_apply (.binary op) (blocked_flat left) (blocked_flat right)
  | logical op left right => blocked_flat_apply (.logical op) (blocked_flat left) (blocked_flat right)
  | unary _ operand => blocked_flat operand
  | step _ _ target => blocked_flat target
  | call _ arguments => allBlocked_flats arguments

theorem allBlocked_flats : (values : List Expression) →
    allBlocked (flats values) + allLost values = allBlocked values
  | [] => rfl
  | value :: values => by
      have first := blocked_flat value
      have later := allBlocked_flats values
      simp only [flats, allBlocked, allLost]
      omega

end

/-! ## Flat forms that say the same -/

/-- An operator says the same in front of a chain that is not blocked. -/
theorem same_graft (associative : op.isAssociative) (left : Expression)
    (free : value.isBlocked op = false) :
    Same (op.apply left value) (graft (op.apply left) op.precedence value) := by
  induction value using front_induction with
  | deferred value induction =>
      exact (Same.operation op (.refl left) (.deferred value)).trans (induction free)
  | operation inner first second induction =>
      rw [graft_apply]
      split
      · rename_i same
        rw [isBlocked_apply] at free
        split at free
        · rename_i chained
          simp only [Bool.and_eq_true, decide_eq_true_eq] at chained
          obtain rfl := chained.2
          exact (Same.regroup op associative left first second).trans
            (.operation op (induction free) (.refl second))
        · exact absurd same (by simpa using free)
      · exact .refl _
  | single value _ _ alone =>
      rw [alone]
      exact .refl _

theorem same_join (free : (right.chains op && right.isBlocked op) = false) (left : Expression) :
    Same (op.apply left right) (join op left right) := by
  unfold join
  split
  · rename_i chained
    rw [chained, Bool.true_and] at free
    exact same_graft (chains_iff.mp chained).1 left free
  · exact .refl _

theorem same_flat_apply (op : Operator) (first : left.lost = 0 → Same left left.flat)
    (second : right.lost = 0 → Same right right.flat) (clear : (op.apply left right).lost = 0) :
    Same (op.apply left right) (op.apply left right).flat := by
  rw [lost_apply] at clear
  have later := second (by omega)
  rw [flat_apply]
  refine (Same.operation op (first (by omega)) later).trans (same_join ?_ left.flat)
  rw [chains_flat, ← later.isBlocked_eq op]
  exact Bool.toNat_eq_zero.mp (by omega)

mutual

/-- A clear expression says the same as its flat form. -/
theorem same_flat : (value : Expression) → value.lost = 0 → Same value value.flat
  | word _, _ => .refl _
  | literal (.int value), _ => by
      rw [flat]
      split
      · rename_i negative
        obtain ⟨magnitude, rfl⟩ : ∃ magnitude : Nat, value = -((magnitude : Int) + 1) :=
          ⟨(-value - 1).toNat, by omega⟩
        rw [Int.neg_neg]
        exact .negative magnitude
      · exact .refl _
  | literal (.float _), _ | literal (.string _), _ | literal (.object _), _ => .refl _
  | inlined value, clear => (Same.deferred value).trans (same_flat value clear)
  | member base field, clear => .member field (same_flat base clear)
  | vector x y z, clear => by
      simp only [lost, Nat.add_eq_zero_iff] at clear
      exact .vector (same_flat x clear.1.1) (same_flat y clear.1.2) (same_flat z clear.2)
  | assign target value, clear => by
      simp only [lost, Nat.add_eq_zero_iff] at clear
      exact .assign (same_flat target clear.1) (same_flat value clear.2)
  | binary op left right, clear =>
      same_flat_apply (.binary op) (same_flat left) (same_flat right) clear
  | logical op left right, clear =>
      same_flat_apply (.logical op) (same_flat left) (same_flat right) clear
  | unary op operand, clear => .unary op (same_flat operand clear)
  | step op before target, clear => .step op before (same_flat target clear)
  | call name arguments, clear => .call name (same_flats arguments clear) []

theorem same_flats : (values : List Expression) → allLost values = 0 →
    List.Forall₂ Same values (flats values)
  | [], _ => .nil
  | value :: values, clear => by
      simp only [allLost, Nat.add_eq_zero_iff] at clear
      exact .cons (same_flat value clear.1) (same_flats values clear.2)

end

/-- An expression says the same as its flat form exactly if it is clear. -/
theorem same_flat_iff : Same value value.flat ↔ value.IsClear := by
  refine ⟨fun same => ?_, same_flat value⟩
  have known := blocked_flat value
  rw [same.blocked_eq] at known
  exact Nat.add_eq_left.mp known

end Expression
end NwScript
