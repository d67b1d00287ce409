import NwScript.Proofs.Flattening
import NwScript.Proofs.PrintedTokens

/-!
# Printed expressions read back

The reader makes of a printed expression its flat form.  An operand is read no further than its tokens as
long as nothing stands behind it that binds more tightly, so the reader is followed along the operators
of one strength, and it puts what it has read in front of all of them.  Printing thus loses no structure
exactly if no right operand that takes a chain further is blocked.
-/

namespace NwScript

namespace Reader

open Expression (join graft)

/-! ## What may stand behind an expression -/

/-- Nothing follows that belongs to an operand. -/
def Apart (rest : List Token) : Prop :=
  ∀ token ∈ rest.head?, token ∉ [.symbol "(", .symbol ".", .symbol "++", .symbol "--"]

/-- No operator follows that binds more tightly than some strength. -/
def Loose (strength : Nat) (rest : List Token) : Prop :=
  Apart rest ∧ ∀ symbol op own, rest.head? = some (.symbol symbol) →
    operator? symbol = some (op, own) → own ≤ strength

/-- An expression ends. -/
def Closed (rest : List Token) : Prop :=
  ∀ token ∈ rest.head?, token ∈ [.symbol ")", .symbol "]", .symbol ","]

variable {tokens rest later : List Token} {value left right : Expression} {strength own : Nat}
  {op : Operator}

@[simp]
theorem operator?_symbol (op : Operator) : operator? op.symbol = some (op, op.precedence.rank) := by
  rcases op with op | op <;> cases op <;> rfl

theorem Loose.mono (loose : Loose own rest) (below : own ≤ strength) : Loose strength rest :=
  ⟨loose.1, fun symbol op found here known => Nat.le_trans (loose.2 symbol op found here known) below⟩

theorem loose_operator (bound : op.precedence.rank ≤ strength) :
    Loose strength (.symbol op.symbol :: rest) := by
  constructor
  · intro token here
    cases here
    rcases op with op | op <;> cases op <;> decide
  · intro symbol other own here known
    cases here
    rw [operator?_symbol] at known
    cases known
    exact bound

theorem Closed.apart (closed : Closed rest) : Apart rest := by
  intro token here
  have listed := closed token here
  simp only [List.mem_cons, List.not_mem_nil, or_false] at listed
  rcases listed with rfl | rfl | rfl <;> decide

theorem Closed.loose (closed : Closed rest) (strength : Nat) : Loose strength rest := by
  refine ⟨closed.apart, fun symbol op own here known => ?_⟩
  have listed := closed _ here
  simp only [List.mem_cons, List.not_mem_nil, or_false, Token.symbol.injEq] at listed
  rcases listed with rfl | rfl | rfl <;> cases known

theorem loose_assignment (strength : Nat) : Loose strength (.symbol "=" :: rest) := by
  constructor
  · intro token here
    cases here
    decide
  · intro symbol op own here known
    cases here
    cases known

theorem behind_apart (apart : Apart rest) (base : Expression) : behind base rest = (base, rest) := by
  unfold behind
  split
  · exact absurd (apart _ rfl) (by simp)
  · exact absurd (apart _ rfl) (by simp)
  · exact absurd (apart _ rfl) (by simp)
  · rfl

/-! ## Steps of the reader -/

theorem operand?_before {apply : Expression → Expression}
    (found : before? tokens = some (apply, rest)) (shorter : rest.length < tokens.length) :
    operand? tokens = (operand? rest).map fun read => (apply read.1, read.2) := by
  rw [operand?, found]
  simp only [if_pos shorter]

theorem operand?_primary (none : before? tokens = none) :
    operand? tokens = (primary? tokens).map fun read => behind read.1 read.2 := by
  rw [operand?, none]

theorem operation?_of_operand (found : operand? tokens = some (left, rest))
    (shorter : rest.length < tokens.length) :
    operation? strength tokens = continue? strength left rest := by
  rw [operation?, found]
  simp only [if_pos shorter]

theorem continue?_loose (loose : Loose own rest) (below : own < strength) (left : Expression) :
    continue? strength left rest = some (left, rest) := by
  unfold continue?
  split
  · split
    · rename_i op found known
      rw [if_neg (Nat.not_le.mpr (Nat.lt_of_le_of_lt (loose.2 _ _ _ rfl known) below))]
    · rfl
  · rfl

theorem continue?_operator (tight : strength ≤ op.precedence.rank)
    (found : operation? (op.precedence.rank + 1) rest = some (right, later))
    (shorter : later.length < rest.length) (left : Expression) :
    continue? strength left (.symbol op.symbol :: rest) =
      continue? strength (op.apply left right) later := by
  rw [continue?, operator?_symbol]
  simp only [if_pos tight, found, if_pos shorter]

/-! ## Tokens that are read as a whole -/

/-- A name, a literal or the like, whatever stands behind it. -/
def ReadsBase (tokens : List Token) (value : Expression) : Prop :=
  ∀ rest, rest.head? ≠ some (.symbol "(") → operand? (tokens ++ rest) = some (behind value rest)

/-- An operand, if nothing follows that belongs to it. -/
def ReadsOperand (tokens : List Token) (value : Expression) : Prop :=
  ∀ rest, Apart rest → operand? (tokens ++ rest) = some (value, rest)

/-- Operands and operators of some strength at least, if no tighter operator follows. -/
def ReadsOperation (bound : Nat) (tokens : List Token) (value : Expression) : Prop :=
  ∀ strength rest, 1 ≤ strength → strength ≤ bound → Loose bound rest →
    operation? strength (tokens ++ rest) = continue? strength value rest

/-- The right operand of an operator, which may take the operator's chain further. -/
def ReadsRight (op : Operator) (tokens : List Token) (value : Expression) : Prop :=
  ∀ strength left rest, strength ≤ op.precedence.rank → Loose op.precedence.rank rest →
    continue? strength left (.symbol op.symbol :: (tokens ++ rest)) =
      continue? strength (join op left value) rest

/-- Operators behind an operator of their strength, which comes in front of them. -/
def ReadsBehind (op : Operator) (tokens : List Token) (value : Expression) : Prop :=
  ∀ strength left rest, strength ≤ op.precedence.rank → Loose op.precedence.rank rest →
    continue? strength left (.symbol op.symbol :: (tokens ++ rest)) =
      continue? strength (graft (op.apply left) op.precedence value) rest

/-- An expression that ends. -/
def ReadsWhole (tokens : List Token) (value : Expression) : Prop :=
  ∀ rest, Closed rest → expression? (tokens ++ rest) = some (value, rest)

theorem operand?_nil : operand? [] = none := by
  rw [operand?_primary rfl]
  simp [primary?]

theorem closed_nil : Closed [] := by
  intro token here
  cases here

theorem ReadsOperand.nonempty (reads : ReadsOperand tokens value) : tokens ≠ [] := by
  rintro rfl
  have found := reads [] closed_nil.apart
  rw [List.nil_append, operand?_nil] at found
  cases found

theorem ReadsOperation.nonempty {bound : Nat} (reads : ReadsOperation bound tokens value)
    (positive : 1 ≤ bound) : tokens ≠ [] := by
  rintro rfl
  have found := reads 1 [] Nat.le.refl positive (closed_nil.loose bound)
  rw [List.nil_append, operation?, operand?_nil, continue?_loose (closed_nil.loose 0) Nat.one_pos]
    at found
  cases found

theorem length_lt_append (nonempty : tokens ≠ []) (rest : List Token) :
    rest.length < (tokens ++ rest).length := by
  have positive := List.length_pos_iff.mpr nonempty
  rw [List.length_append]
  omega

theorem ReadsBase.operand (reads : ReadsBase tokens value) : ReadsOperand tokens value := by
  intro rest apart
  rw [reads rest, behind_apart apart]
  intro opening
  exact apart _ opening (by simp)

theorem ReadsOperand.operation (reads : ReadsOperand tokens value) (bound : Nat) :
    ReadsOperation bound tokens value := by
  intro strength rest _ _ loose
  exact operation?_of_operand (reads rest loose.1) (length_lt_append reads.nonempty rest)

theorem ReadsOperation.whole {bound : Nat} (reads : ReadsOperation bound tokens value)
    (positive : 1 ≤ bound) : ReadsWhole tokens value := by
  intro rest closed
  unfold expression?
  rw [reads 1 rest Nat.le.refl positive (closed.loose bound),
    continue?_loose (closed.loose 0) Nat.one_pos]
  split
  · rename_i same
    cases same
    exact absurd (closed _ rfl) (by simp)
  · rfl

theorem before?_opening : before? (.symbol "(" :: rest) = none := rfl

theorem closed_paren (rest : List Token) : Closed (.symbol ")" :: rest) := by
  intro token here
  cases here
  simp

theorem ReadsWhole.base (reads : ReadsWhole tokens value) : ReadsBase (wrap true tokens) value := by
  intro rest _
  have spelled : wrap true tokens ++ rest = .symbol "(" :: (tokens ++ .symbol ")" :: rest) := by
    simp [wrap]
  rw [spelled, operand?_primary before?_opening, primary?, reads _ (closed_paren rest)]
  rfl

theorem ReadsOperand.wrap (reads : ReadsOperand tokens value) (needed : Bool) :
    ReadsOperand (wrap needed tokens) value := by
  cases needed with
  | false => exact reads
  | true => exact ((reads.operation 1).whole Nat.le.refl).base.operand

/-- An operand that binds more tightly is the right one. -/
theorem ReadsOperation.tighter {bound : Nat} (reads : ReadsOperation bound tokens value)
    (tighter : op.precedence.rank < bound) (tight : strength ≤ op.precedence.rank)
    (loose : Loose op.precedence.rank rest) (left : Expression) :
    continue? strength left (.symbol op.symbol :: (tokens ++ rest)) =
      continue? strength (op.apply left value) rest := by
  have found : operation? (op.precedence.rank + 1) (tokens ++ rest) = some (value, rest) := by
    rw [reads _ rest (Nat.le_add_left 1 _) tighter (loose.mono (Nat.le_of_lt tighter)),
      continue?_loose loose (Nat.lt_succ_self _)]
  have nonempty := reads.nonempty (Nat.one_le_iff_ne_zero.mpr (Nat.ne_zero_of_lt tighter))
  exact continue?_operator tight found (length_lt_append nonempty rest) left

theorem ReadsOperation.behind {bound : Nat} (reads : ReadsOperation bound tokens value)
    (tighter : op.precedence.rank < bound)
    (alone : ∀ change, graft change op.precedence value = change value) :
    ReadsBehind op tokens value := by
  intro strength left rest tight loose
  rw [reads.tighter tighter tight loose, alone]

/-! ## Lists of expressions -/

theorem list?_last (reads : ReadsWhole tokens value) (closed : Closed rest)
    (last : rest.head? ≠ some (.symbol ",")) : list? (tokens ++ rest) = some ([value], rest) := by
  unfold list?
  rw [reads rest closed]
  split
  · rename_i same
    cases same
    exact absurd rfl last
  · rename_i same
    cases same
    rfl
  · rename_i same
    cases same

theorem list?_more (reads : ReadsWhole tokens value) {values : List Expression}
    (found : list? later = some (values, rest)) :
    list? (tokens ++ .symbol "," :: later) = some (value :: values, rest) := by
  have closed : Closed (.symbol "," :: later) := by
    intro token here
    cases here
    simp
  have shorter : later.length < (tokens ++ .symbol "," :: later).length := by
    rw [List.length_append, List.length_cons]
    omega
  unfold list?
  rw [reads _ closed]
  simp only [if_pos shorter, found, Option.map_some]

theorem list?_closing : list? (.symbol ")" :: rest) = none := by
  have primary : primary? (.symbol ")" :: rest) = none := by simp [primary?]
  have operand : operand? (.symbol ")" :: rest) = none := by
    rw [operand?_primary rfl, primary, Option.map_none]
  have whole : expression? (.symbol ")" :: rest) = none := by
    rw [expression?, operation?, operand]
  rw [list?, whole]

end Reader

namespace Expression

open Reader

/-! ## Expressions that read back -/

/-- A right operand stands in parentheses. -/
def isWrapped (op : Operator) (operand : Expression) : Bool :=
  operand.isWeakerThan op.precedence || (operand.precedence = op.precedence && !operand.chains op)

theorem flat_argument (value : Expression) : value.argument.flat = value.flat := by
  cases value <;> rfl

/-- What the reader makes of the tokens of an expression. -/
structure ReadsBack (value : Expression) : Prop where
  /-- A primary expression may have members taken of it. -/
  base : value.precedence = .primary → ¬value.IsNegative → ReadsBase value.tokens value.flat
  /-- An operand of an operator before it. -/
  operand : Precedence.unary.rank ≤ value.precedence.rank → ReadsOperand value.tokens value.flat
  /-- A left operand. -/
  operation : ReadsOperation value.precedence.rank value.tokens value.flat
  /-- An operand behind an operator that binds no more tightly. -/
  behind : ∀ op : Operator, op.precedence.rank ≤ value.precedence.rank →
    ReadsBehind op value.tokens value.flat
  /-- An expression on its own. -/
  whole : ReadsWhole value.tokens value.flat

variable {value left right : Expression} {op : Operator}

@[simp]
theorem precedence_apply (op : Operator) (left right : Expression) :
    (op.apply left right).precedence = op.precedence := by
  cases op <;> rfl

theorem isWrappedRight_eq (plain : right.IsPlain) (op : BinaryOp) :
    right.isWrappedRight op = right.isWrapped (.binary op) := by
  have associative : op.isAssociative = (Operator.binary op).isAssociative := by cases op <;> rfl
  have chained : right.continues op = right.chains (.binary op) := by
    cases right with
    | inlined value => exact plain.elim
    | _ => simp [continues, chains, operator?, associative, Bool.and_comm, eq_comm]
  rw [isWrappedRight, isWrapped, chained]
  rfl

theorem isWrappedRightLogical_eq (plain : right.IsPlain) (op : LogicalOp) :
    right.isWrappedRightLogical op = right.isWrapped (.logical op) := by
  have chained : right.continuesLogical op = right.chains (.logical op) := by
    cases right with
    | inlined value => exact plain.elim
    | _ => simp [continuesLogical, chains, operator?, Operator.isAssociative, eq_comm]
  rw [isWrappedRightLogical, isWrapped, chained]
  rfl

theorem tokens_apply (plain : right.IsPlain) : (op.apply left right).tokens =
    wrap (left.isWeakerThan op.precedence) left.tokens ++
      .symbol op.symbol :: wrap (right.isWrapped op) right.tokens := by
  cases op with
  | binary op =>
      rw [Operator.apply, tokens, isWrappedRight_eq plain]
      rfl
  | logical op =>
      rw [Operator.apply, tokens, isWrappedRightLogical_eq plain]
      rfl

/-- Nothing comes in front of an expression but its own operators. -/
theorem graft_flat (plain : value.IsPlain) {strength : Precedence} (other : value.precedence ≠ strength)
    (change : Expression → Expression) : graft change strength value.flat = change value.flat := by
  have operation (inner : Operator) (first second : Expression) (other : inner.precedence ≠ strength) :
      graft change strength (inner.apply first second).flat =
        change (inner.apply first second).flat := by
    obtain ⟨third, fourth, known⟩ := join_eq_apply inner first.flat second.flat
    rw [flat_apply, known, graft_apply, if_neg other]
  cases value with
  | binary inner first second => exact operation (.binary inner) first second other
  | logical inner first second => exact operation (.logical inner) first second other
  | inlined value => exact plain.elim
  | literal constant =>
      cases constant with
      | int value =>
          rw [flat]
          split <;> rfl
      | _ => rfl
  | _ => rfl

theorem rank_operator (op : Operator) :
    1 ≤ op.precedence.rank ∧ op.precedence.rank < Precedence.unary.rank := by
  rcases op with op | op <;> cases op <;> decide

/-! ## One form of expression at a time -/

theorem ReadsBack.of_operand (operand : ReadsOperand value.tokens value.flat)
    (tight : Precedence.unary.rank ≤ value.precedence.rank) (plain : value.IsPlain)
    (base : value.precedence = .primary → ¬value.IsNegative → ReadsBase value.tokens value.flat) :
    ReadsBack value where
  base := base
  operand _ := operand
  operation := operand.operation _
  behind op _ := by
    have tighter := Nat.lt_of_lt_of_le (rank_operator op).2 tight
    exact (operand.operation value.precedence.rank).behind tighter
      (graft_flat plain fun same => Nat.ne_of_gt tighter (congrArg Precedence.rank same))
  whole := (operand.operation 1).whole Nat.le.refl

theorem tight_of_primary (primary : value.precedence = .primary) :
    Precedence.unary.rank ≤ value.precedence.rank := by
  rw [primary]
  decide

theorem ReadsBack.of_base (base : ReadsBase value.tokens value.flat)
    (primary : value.precedence = .primary) (plain : value.IsPlain) : ReadsBack value :=
  .of_operand base.operand (tight_of_primary primary) plain fun _ _ => base

theorem readsBack_word {name : String} (plain : (word name).IsPlain) : ReadsBack (word name) := by
  refine .of_base (fun rest opening => ?_) rfl plain
  have found : primary? (.name name :: rest) = some (word name, rest) := by
    unfold primary?
    split <;> simp_all
  rw [tokens, List.singleton_append, operand?_primary rfl, found]
  rfl

theorem readsOperand_number (value : Nat) :
    ReadsBase [.number value] (literal (.int value)) := by
  intro rest _
  rw [List.singleton_append, operand?_primary rfl]
  simp [primary?]

theorem readsBack_literal {constant : Constant} (plain : (literal constant).IsPlain) :
    ReadsBack (literal constant) := by
  cases constant with
  | int value =>
      by_cases negative : value < 0
      · refine .of_operand (fun rest apart => ?_) (tight_of_primary rfl) plain fun _ other =>
          absurd negative other
        have magnitude : ((value.natAbs : Nat) : Int) = -value := by omega
        have number := (readsOperand_number value.natAbs).operand rest apart
        rw [tokens, flat, if_pos negative, if_pos negative, List.cons_append,
          operand?_before (rfl : before? _ = some (_, [.number value.natAbs] ++ rest)) (by simp),
          number, magnitude]
        rfl
      · refine .of_base ?_ rfl plain
        have magnitude : ((value.natAbs : Nat) : Int) = value := by omega
        rw [tokens, flat, if_neg negative, if_neg negative]
        simpa only [magnitude] using readsOperand_number value.natAbs
  | string value =>
      refine .of_base (fun rest _ => ?_) rfl plain
      rw [tokens, List.singleton_append, operand?_primary rfl]
      simp [primary?, flat]
  | _ => exact plain.elim

theorem primary_of_not_weaker (strong : value.isWeakerThan .primary = false) :
    value.precedence = .primary := by
  rw [isWeakerThan, decide_eq_false_iff_not] at strong
  cases known : value.precedence <;> first | rfl | simp [known, Precedence.rank] at strong

theorem readsBack_member {base : Expression} {field : String} (read : ReadsBack base)
    (plain : (member base field).IsPlain) : ReadsBack (member base field) := by
  have aggregate : ReadsBase (wrap (base.isWeakerThan .primary) base.tokens) base.flat := by
    cases strong : base.isWeakerThan .primary with
    | true => exact read.whole.base
    | false => exact read.base (primary_of_not_weaker strong) plain.2.1
  refine .of_base (fun rest _ => ?_) rfl plain
  rw [tokens, List.append_assoc, aggregate _ (by simp)]
  simp [behind, flat]

theorem closed_bracket (rest : List Token) : Closed (.symbol "]" :: rest) := by
  intro token here
  cases here
  simp

theorem readsBack_vector {x y z : Expression} (first : ReadsBack x) (second : ReadsBack y)
    (third : ReadsBack z) (plain : (vector x y z).IsPlain) : ReadsBack (vector x y z) := by
  refine .of_base (fun rest _ => ?_) rfl plain
  have listed := list?_more first.whole (list?_more second.whole
    (list?_last third.whole (closed_bracket rest) (by simp)))
  have spelled : (vector x y z).tokens ++ rest = .symbol "[" :: (x.tokens ++ .symbol "," ::
      (y.tokens ++ .symbol "," :: (z.tokens ++ .symbol "]" :: rest))) := by
    simp [tokens]
  rw [spelled, operand?_primary rfl, primary?, listed]
  simp [flat]

theorem precedence_of_isVariable (named : value.IsVariable) : value.precedence = .primary := by
  cases value with
  | word _ => rfl
  | member _ _ => rfl
  | _ => exact named.elim

theorem readsBack_assign {target value : Expression} (left : ReadsBack target)
    (right : ReadsBack value) (named : target.IsVariable) : ReadsBack (assign target value) where
  base primary := by cases primary
  operand tight := absurd tight (Nat.not_succ_le_zero _)
  operation strength rest positive below :=
    absurd (Nat.le_trans positive below) (Nat.not_succ_le_zero _)
  behind op below := absurd (Nat.le_trans (rank_operator op).1 below) (Nat.not_succ_le_zero _)
  whole rest closed := by
    have primary := precedence_of_isVariable named
    have first := left.operation 1 (.symbol "=" :: (value.tokens ++ rest)) Nat.le.refl
      (by rw [primary]; decide) (loose_assignment _)
    have shorter : (value.tokens ++ rest).length <
        (target.tokens ++ .symbol "=" :: (value.tokens ++ rest)).length := by
      simp only [List.length_append, List.length_cons]
      omega
    rw [continue?_loose (loose_assignment 0) Nat.one_pos] at first
    rw [tokens, List.append_assoc, List.cons_append, expression?, first]
    simp only [if_pos shorter, right.whole rest closed, Option.map_some, flat]

theorem operand_of_weak (read : ReadsBack value) :
    ReadsOperand (wrap (value.isWeakerThan .unary) value.tokens) value.flat := by
  cases strong : value.isWeakerThan .unary with
  | true => exact read.whole.base.operand
  | false =>
      rw [isWeakerThan, decide_eq_false_iff_not, Nat.not_lt] at strong
      exact read.operand strong

theorem readsBack_unary {op : UnaryOp} {operand : Expression} (read : ReadsBack operand)
    (plain : (unary op operand).IsPlain) : ReadsBack (unary op operand) := by
  refine .of_operand (fun rest apart => ?_) Nat.le.refl plain fun primary => by cases primary
  have inner := (operand_of_weak read).wrap
    (op.symbol.toList.isPrefixOf (enclose (operand.isWeakerThan .unary) operand.text).toList)
    rest apart
  have marked (later : List Token) :
      before? (.symbol op.symbol :: later) = some (unary op, later) := by
    cases op <;> rfl
  rw [tokens, List.cons_append, operand?_before (marked _) (Nat.lt_succ_self _), inner]
  rfl

theorem readsBack_stepBefore {op : StepOp} {target : Expression} (read : ReadsBack target)
    (plain : (step op true target).IsPlain) : ReadsBack (step op true target) := by
  refine .of_operand (fun rest apart => ?_) Nat.le.refl plain fun primary => by cases primary
  have marked (later : List Token) :
      before? (.symbol op.symbol :: later) = some (step op true, later) := by
    cases op <;> rfl
  rw [tokens, List.cons_append, operand?_before (marked _) (Nat.lt_succ_self _),
    operand_of_weak read rest apart]
  rfl

theorem readsBack_stepBehind {op : StepOp} {target : Expression} (read : ReadsBack target)
    (plain : (step op false target).IsPlain) : ReadsBack (step op false target) := by
  refine .of_operand (fun rest apart => ?_) Nat.le.refl plain fun primary => by cases primary
  have primary := precedence_of_isVariable plain.1
  have strong : target.isWeakerThan .unary = false := by
    rw [isWeakerThan, primary]
    rfl
  have positive : ¬target.IsNegative := by
    cases target with
    | word _ => exact id
    | member _ _ => exact id
    | _ => exact plain.1.elim
  have marked : behind target.flat (.symbol op.symbol :: rest) =
      (step op false target.flat, rest) := by
    cases op <;> simp [behind, StepOp.symbol]
  rw [tokens, strong, List.append_assoc, wrap, if_neg Bool.false_ne_true, List.singleton_append,
    read.base primary positive _ (by cases op <;> simp [StepOp.symbol]), marked, flat]

/-! ## Calls -/

/-- The arguments of a call, unless there are none. -/
def ReadsArguments (values : List Expression) : Prop :=
  values ≠ [] → ∀ rest, list? (listTokens values ++ .symbol ")" :: rest) =
    some (flats values, .symbol ")" :: rest)

theorem readsArguments_cons {values : List Expression} (first : ReadsWhole value.tokens value.flat)
    (later : ReadsArguments values) : ReadsArguments (value :: values) := by
  intro _ rest
  cases values with
  | nil => exact list?_last first (closed_paren rest) (by simp)
  | cons second values =>
      have spelled : listTokens (value :: second :: values) ++ .symbol ")" :: rest =
          value.tokens ++ .symbol "," :: (listTokens (second :: values) ++ .symbol ")" :: rest) := by
        simp [listTokens]
      rw [spelled, flats]
      exact list?_more first (later (List.cons_ne_nil _ _) rest)

theorem readsBack_call {name : String} {arguments : List Expression}
    (read : ReadsArguments arguments) (plain : (call name arguments).IsPlain) :
    ReadsBack (call name arguments) := by
  refine .of_base (fun rest _ => ?_) rfl plain
  have spelled : (call name arguments).tokens ++ rest =
      .name name :: .symbol "(" :: (listTokens arguments ++ .symbol ")" :: rest) := by
    simp [tokens]
  rw [spelled, operand?_primary rfl]
  cases arguments with
  | nil => simp [primary?, listTokens, flat, flats]
  | cons first others =>
      have found := read (List.cons_ne_nil _ _) rest
      have unclosed : ∀ later,
          listTokens (first :: others) ++ .symbol ")" :: rest ≠ .symbol ")" :: later := by
        intro later same
        rw [same, list?_closing] at found
        cases found
      have called : primary? (.name name :: .symbol "(" :: (listTokens (first :: others) ++
          .symbol ")" :: rest)) = some (call name (flats (first :: others)), rest) := by
        rw [primary?, found]
        · rfl
        · exact unclosed
      rw [called, flat]
      rfl

/-! ## Operations -/

/-- A left operand. -/
theorem operation_of_weak (read : ReadsBack value) : ∀ strength rest, 1 ≤ strength →
    strength ≤ op.precedence.rank → Loose op.precedence.rank rest →
      operation? strength (wrap (value.isWeakerThan op.precedence) value.tokens ++ rest) =
        continue? strength value.flat rest := by
  cases strong : value.isWeakerThan op.precedence with
  | true => exact read.whole.base.operand.operation _
  | false =>
      rw [isWeakerThan, decide_eq_false_iff_not, Nat.not_lt] at strong
      intro strength rest positive below loose
      exact read.operation strength rest positive (Nat.le_trans below strong) (loose.mono strong)

theorem rank_inj {first second : Precedence} (same : first.rank = second.rank) : first = second := by
  cases first <;> cases second <;> first | rfl | cases same

/-- An operand that stands in parentheses unless it binds as tightly as the operator before it. -/
theorem behind_of_weak (read : ReadsBack value) (plain : value.IsPlain) (op : Operator) :
    ReadsBehind op (wrap (value.isWeakerThan op.precedence) value.tokens) value.flat := by
  cases strong : value.isWeakerThan op.precedence with
  | true =>
      rw [isWeakerThan, decide_eq_true_eq] at strong
      exact (read.whole.base.operand.operation (op.precedence.rank + 1)).behind (Nat.lt_succ_self _)
        (graft_flat plain fun same => Nat.ne_of_lt strong (congrArg Precedence.rank same))
  | false =>
      rw [isWeakerThan, decide_eq_false_iff_not, Nat.not_lt] at strong
      exact read.behind op strong

/-- A right operand. -/
theorem right_of_wrapped (read : ReadsBack value) (plain : value.IsPlain) (op : Operator) :
    ReadsRight op (wrap (value.isWrapped op) value.tokens) value.flat := by
  intro strength left rest tight loose
  cases chained : value.chains op with
  | true =>
      have unwrapped : value.isWrapped op = value.isWeakerThan op.precedence := by
        rw [isWrapped, chained, Bool.not_true, Bool.and_false, Bool.or_false]
      rw [unwrapped, behind_of_weak read plain op strength left rest tight loose, join, chains_flat,
        if_pos chained]
  | false =>
      rw [join, chains_flat, chained, if_neg Bool.false_ne_true]
      cases wrapped : value.isWrapped op with
      | true =>
          exact (read.whole.base.operand.operation _).tighter (Nat.lt_succ_self _) tight loose left
      | false =>
          refine read.operation.tighter ?_ tight loose left
          simp only [isWrapped, chained, Bool.not_false, Bool.and_true, Bool.or_eq_false_iff,
            isWeakerThan, decide_eq_false_iff_not, Nat.not_lt] at wrapped
          exact Nat.lt_of_le_of_ne wrapped.1 fun same => wrapped.2 (rank_inj same).symm

theorem readsBack_apply (op : Operator) (first : ReadsBack left) (second : ReadsBack right)
    (plain : left.IsPlain) (plainRight : right.IsPlain) : ReadsBack (op.apply left right) := by
  have later := right_of_wrapped second plainRight op
  have operation : ReadsOperation op.precedence.rank (op.apply left right).tokens
      (op.apply left right).flat := by
    intro strength rest positive below loose
    rw [tokens_apply plainRight, flat_apply, List.append_assoc, List.cons_append,
      operation_of_weak first strength _ positive below (loose_operator Nat.le.refl),
      later strength _ rest below loose]
  obtain ⟨positive, below⟩ := rank_operator op
  rw [← precedence_apply op left right] at operation positive below
  refine ⟨fun primary _ => ?_, fun tight => ?_, operation, fun outer looser => ?_,
    operation.whole positive⟩
  · rw [primary] at below
    exact absurd below (by decide)
  · exact absurd tight (Nat.not_le.mpr below)
  rw [precedence_apply] at looser
  by_cases same : outer.precedence = op.precedence
  · intro strength head rest below loose
    rw [same] at below loose
    rw [tokens_apply plainRight, flat_apply, graft_join same.symm, List.append_assoc,
      List.cons_append, ← same, behind_of_weak first plain outer strength head _ (by rwa [same])
        (loose_operator (Nat.le_of_eq (by rw [same]))), later strength _ rest below loose]
  · have tighter := Nat.lt_of_le_of_ne looser fun ranks => same (rank_inj ranks)
    rw [← precedence_apply op left right] at tighter
    refine operation.behind tighter fun change => ?_
    obtain ⟨third, fourth, known⟩ := join_eq_apply op left.flat right.flat
    rw [flat_apply, known, graft_apply, if_neg (Ne.symm same)]

mutual

/-- The reader makes of a printed expression its flat form. -/
theorem readsBack : (value : Expression) → value.IsPlain → ReadsBack value
  | word _, plain => readsBack_word plain
  | literal _, plain => readsBack_literal plain
  | member base _, plain => readsBack_member (readsBack base plain.1) plain
  | vector x y z, plain =>
      readsBack_vector (readsBack x plain.1) (readsBack y plain.2.1) (readsBack z plain.2.2) plain
  | assign target value, plain =>
      readsBack_assign (readsBack target plain.2.1) (readsBack value plain.2.2) plain.1
  | binary op left right, plain =>
      readsBack_apply (.binary op) (readsBack left plain.1) (readsBack right plain.2) plain.1 plain.2
  | logical op left right, plain =>
      readsBack_apply (.logical op) (readsBack left plain.1) (readsBack right plain.2) plain.1 plain.2
  | unary _ operand, plain => readsBack_unary (readsBack operand plain) plain
  | step _ true target, plain => readsBack_stepBefore (readsBack target plain.2) plain
  | step _ false target, plain => readsBack_stepBehind (readsBack target plain.2) plain
  | call _ arguments, plain => readsBack_call (readsBack_all arguments plain.2) plain
termination_by value => sizeOf value

/-- The reader makes of printed arguments their flat forms. -/
theorem readsBack_all : (values : List Expression) → ArePlain values → ReadsArguments values
  | [], _ => fun nonempty => absurd rfl nonempty
  | value :: values, plain => by
      obtain ⟨plain, later⟩ := arePlain_cons.mp plain
      have first := (readsBack value.argument plain).whole
      rw [tokens_argument, flat_argument] at first
      exact readsArguments_cons first (readsBack_all values later)
termination_by values => sizeOf values
decreasing_by
  all_goals
    have smaller := sizeOf_argument value
    simp only [List.cons.sizeOf_spec]
    omega

end

/-- The reader makes of a printed expression its flat form. -/
theorem read?_text {value : Expression} (plain : value.IsPlain) :
    read? value.text = some value.flat := by
  have found := (readsBack value plain).whole [] closed_nil
  rw [List.append_nil] at found
  rw [read?, tokens?_text plain, Option.bind_some, found]

/-- A member of a negative literal is written like a negated member. -/
theorem text_member_negative (magnitude : Nat) (field : String) :
    (member (literal (.int (Int.negSucc magnitude))) field).text =
      (unary .negate (member (literal (.int (Int.ofNat (magnitude + 1)))) field)).text := by
  have spelled (value : Int) : (member (literal (.int value)) field).text =
      toString value ++ "." ++ field := rfl
  have negated (operand : String) (base : Expression) : (unary .negate (member base operand)).text =
      before "-" (member base operand).text := rfl
  have apart : "-".toList.isPrefixOf
      (toString (Int.ofNat (magnitude + 1)) ++ "." ++ field).toList = false := by
    rw [String.toList_append, String.toList_append, toList_toString_ofNat]
    cases digits : Nat.toDigits 10 (magnitude + 1) with
    | nil => exact absurd digits Nat.toDigits_ne_nil
    | cons first rest =>
        have digit : first.isDigit := isDigit_of_head (by rw [digits]; rfl)
        rw [← Bool.not_eq_true]
        intro fits
        have minus : '-' = first := by simpa using fits
        subst minus
        cases digit
  rw [negated, spelled, spelled, before, apart, enclose, if_neg Bool.false_ne_true,
    ← String.toList_inj]
  simp only [String.toList_append, toList_toString_ofNat, toList_toString_negSucc]
  rfl

/-- A member of a negative literal is read as a negated member. -/
theorem read?_member_negative (magnitude : Nat) {field : String} (named : IsName field) :
    read? (member (literal (.int (Int.negSucc magnitude))) field).text =
      some (unary .negate (member (literal (.int (Int.ofNat (magnitude + 1)))) field)) := by
  have positive : ¬Int.ofNat (magnitude + 1) < 0 := Int.not_lt.mpr (Int.natCast_nonneg _)
  have plain : (unary .negate (member (literal (.int (Int.ofNat (magnitude + 1)))) field)).IsPlain :=
    ⟨trivial, positive, named⟩
  rw [text_member_negative, read?_text plain, flat, flat, flat, if_neg positive]

/-- Printing loses no structure of an expression exactly if no right operand that takes a chain further
is led by another operator of the chain's strength. -/
theorem text_keeps_structure (value : Expression) (plain : value.IsPlain) :
    (∃ back, read? value.text = some back ∧ Same value back) ↔ value.IsClear := by
  rw [read?_text plain, ← same_flat_iff]
  constructor
  · rintro ⟨back, found, same⟩
    cases found
    exact same
  · exact fun same => ⟨value.flat, rfl, same⟩

/-- The sum `a + (b + -(-5))`, whose chain is regrouped. -/
def regrouped : Expression :=
  .binary .add (.word "a") (.binary .add (.word "b") (.unary .negate (.literal (.int (-5)))))

theorem text_keeps_structure_regrouped : regrouped.IsPlain ∧ regrouped.text = "a + b + -(-5)" ∧
    ∃ back, read? regrouped.text = some back ∧ Same regrouped back := by
  have plain : regrouped.IsPlain := by
    have first : IsName "a" := ⟨'a', [], rfl, rfl, by simp⟩
    have second : IsName "b" := ⟨'b', [], rfl, rfl, by simp⟩
    exact ⟨first, second, trivial⟩
  exact ⟨plain, rfl, (text_keeps_structure regrouped plain).mpr rfl⟩

/-- The product `2 * ((3 / 2) * 1)`, whose chain is led by a quotient. -/
def ledChain : Expression :=
  .binary .mul (.literal (.int 2)) (.binary .mul
    (.binary .div (.literal (.int 3)) (.literal (.int 2))) (.literal (.int 1)))

theorem text_loses_ledChain : ledChain.IsPlain ∧ ledChain.text = "2 * 3 / 2 * 1" ∧
    ∀ back, read? ledChain.text = some back → ¬Same ledChain back := by
  have plain : ledChain.IsPlain := ⟨trivial, ⟨trivial, trivial⟩, trivial⟩
  refine ⟨plain, rfl, fun back found same => ?_⟩
  rw [read?_text plain, Option.some.injEq] at found
  subst found
  exact absurd (same_flat_iff.mp same) (by decide)

end Expression
end NwScript
