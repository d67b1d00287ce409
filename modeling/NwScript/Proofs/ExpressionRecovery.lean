import NwScript.Proofs.ExpressionSteps

/-!
# Recovery of integer expressions

The code of an expression leaves one value that spells it, by induction on the expression: each part
of the code leaves its operand above those that wait already, and the operator at the end takes them.
-/

namespace NwScript
namespace IntExpr

open Recover

section Code

variable {input : RecoveryInput} {locals : Locals} {body : Body}

mutual

/-- The code of an expression leaves a value that spells it. -/
theorem Works.visits_code (straight : IsStraight input) (value : IntExpr)
    (proper : value.Proper input.catalog locals.count) {values : List IntExpr}
    {before : Recovery} {first position : Nat}
    (spans : input.program.Spans first position (value.code (locals.count + values.length)))
    (works : Works input.catalog locals body values before) :
    ∃ after, Visits input first (value.code (locals.count + values.length)).length before after ∧
      Works input.catalog locals body (value :: values) after := by
  cases value with
  | literal value =>
      rw [code] at spans
      exact works.visits_literal straight spans
  | read slot =>
      rw [code] at spans
      rw [Proper] at proper
      exact works.visits_read proper straight spans
  | unary op operand =>
      rw [code] at spans ⊢
      rw [Proper] at proper
      obtain ⟨middle, visits, one⟩ := works.visits_code straight operand proper spans.left
      obtain ⟨after, visit, whole⟩ := one.visits_unary straight spans.right
      rw [List.length_append]
      exact ⟨after, visits.append visit, whole⟩
  | binary op left right =>
      rw [code] at spans ⊢
      rw [Proper] at proper
      obtain ⟨middle, visits, one⟩ := works.visits_code straight left proper.1 spans.left
      obtain ⟨later, others, both⟩ := one.visits_code straight right proper.2 spans.right.left
      obtain ⟨after, visit, whole⟩ := both.visits_binary straight spans.right.right
      rw [List.length_append, List.length_append]
      exact ⟨after, visits.append (others.append visit), whole⟩
  | logical op left right =>
      rw [code] at spans ⊢
      rw [Proper] at proper
      obtain ⟨middle, visits, one⟩ := works.visits_code straight left proper.1 spans.left
      obtain ⟨between, skips, still⟩ := one.visits_skip straight spans.right.left
      obtain ⟨later, others, both⟩ :=
        still.visits_code straight right proper.2 spans.right.right.left
      obtain ⟨after, visit, whole⟩ := both.visits_logical straight spans.right.right.right
      rw [List.length_append, List.length_append, List.length_append]
      exact ⟨after, visits.append (skips.append (others.append visit)), whole⟩
  | call action arguments =>
      rw [code] at spans ⊢
      rw [Proper] at proper
      obtain ⟨⟨name, listed⟩, proper⟩ := proper
      obtain ⟨middle, visits, each⟩ := works.visits_codes straight arguments proper spans.left
      obtain ⟨after, visit, whole⟩ := each.visits_action listed straight spans.right
      rw [List.length_append]
      exact ⟨after, visits.append visit, whole⟩

/-- The code of arguments leaves their values, the first one on top. -/
theorem Works.visits_codes (straight : IsStraight input) (arguments : List IntExpr)
    (proper : AllProper input.catalog locals.count arguments) {values : List IntExpr}
    {before : Recovery} {first position : Nat}
    (spans : input.program.Spans first position (codes (locals.count + values.length) arguments))
    (works : Works input.catalog locals body values before) :
    ∃ after,
      Visits input first (codes (locals.count + values.length) arguments).length before after ∧
        Works input.catalog locals body (arguments ++ values) after := by
  cases arguments with
  | nil =>
      rw [codes]
      exact ⟨before, .done _ _, works⟩
  | cons argument arguments =>
      rw [codes] at spans ⊢
      rw [AllProper] at proper
      have height : locals.count + values.length + arguments.length =
          locals.count + (arguments ++ values).length := by
        rw [List.length_append]
        omega
      obtain ⟨middle, visits, others⟩ := works.visits_codes straight arguments proper.2 spans.left
      have last := spans.right
      rw [height] at last ⊢
      obtain ⟨after, visit, each⟩ := others.visits_code straight argument proper.1 last
      rw [List.length_append]
      exact ⟨after, visits.append visit, each⟩

end

end Code

end IntExpr
end NwScript
