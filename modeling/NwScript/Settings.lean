/-!
# Settings

The settings of one run: limits of the type inference and choices of the printed program.
-/

namespace NwScript

/-- Limits of the type inference. -/
structure SearchLimits where
  /-- Paths tried per subroutine in each pass; none tries all of them. -/
  passBudgets : List (Option Nat) := [some 10, some 15, some 25, none]
  /-- Branch decisions queued per subroutine before its search is given up. -/
  maxDecisions : Nat := 3000
  /-- Rounds in which prototypes learn from each other. -/
  refinementRounds : Nat := 4
  deriving DecidableEq, Repr, Inhabited

namespace SearchLimits

/-- The path budget of refinement, which is the one of the last pass. -/
def refinementBudget (limits : SearchLimits) : Option Nat :=
  limits.passBudgets.getLast?.join

end SearchLimits

/-- Settings of a run. -/
structure Settings where
  /-- Report subroutines whose prototype is guessed. -/
  strict : Bool := false
  /-- Limits of the type inference. -/
  limits : SearchLimits := {}
  /-- Subroutines may be recovered at the same time; the result is the same either way. -/
  parallel : Bool := true
  /-- Leave out trailing arguments that equal their default. -/
  omitDefaults : Bool := true
  /-- One level of indentation. -/
  indent : String := "    "
  deriving DecidableEq, Repr, Inhabited

namespace Settings

/-- Settings that print every argument. -/
def literal : Settings :=
  { parallel := false, omitDefaults := false }

end Settings
end NwScript
