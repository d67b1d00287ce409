import Mathlib.Data.Fintype.EquivFin
import NwScript.Proofs.CleanedStatements
import NwScript.Proofs.NestedScopes

/-!
# Places of statements

Links from statements to the nodes that hold them are kept beside the lists of child statements, and
many steps of the recovery and the cleanup move statements.  Without deferred arguments the two never
disagree in a recovered tree, and no statement ever stands in two places.
-/

namespace NwScript

/-- Child statements link to the node that holds them, and no statement has two places. -/
structure ScriptTree.KeepsPlaces (tree : ScriptTree) : Prop where
  /-- A child statement links to the node that holds it. -/
  linked : ∀ {holder child : NodeId}, child ∈ tree.children holder → tree.parent? child = some holder
  /-- No two nodes hold the same statement. -/
  apart : ∀ {first second child : NodeId}, child ∈ tree.children first →
    child ∈ tree.children second → first = second
  /-- No node holds a statement twice. -/
  once : ∀ holder, (tree.children holder).Nodup

/-- Nodes that no expression owns and that no statement uses are placed by their links. -/
theorem ScriptTree.IsProper.keepsPlaces {tree : ScriptTree} (proper : tree.IsProper) :
    tree.KeepsPlaces where
  linked held := proper.placed.home held (proper.children held)
  apart here there := proper.holder_unique here there
  once := proper.placed.once

/-- Every catalog leaves a number to an action without a result. -/
theorem ActionCatalog.exists_isCommand (catalog : ActionCatalog) : ∃ action, catalog.IsCommand action := by
  obtain ⟨action, fresh⟩ := Infinite.exists_notMem_finset (catalog.entries.map (·.1)).toFinset
  have unknown : catalog.find? action = none := by
    rw [find?, List.lookup_eq_none_iff]
    intro entry listed
    have different : action ≠ entry.1 := by
      rintro rfl
      exact fresh (List.mem_toFinset.mpr (List.mem_map_of_mem listed))
    simpa using different
  refine ⟨action, ?_⟩
  rw [IsCommand, returnType?, unknown]
  rfl

namespace RecoveryInput

open ScriptTree

variable {input : RecoveryInput} {sub : Nat} {tree : ScriptTree}

/-- Without deferred arguments every statement of what a recovery leaves has one place. -/
theorem run_isProper
    (plain : ∀ place ∈ input.program.body sub, (input.program.opcode place).isStateSave = false)
    {last : Recovery} (ran : input.run sub = .ok last) : last.tree.IsProper := by
  obtain ⟨ids, plays⟩ := exists_plays_run ran
  obtain ⟨action, command⟩ := input.catalog.exists_isCommand
  have sound := input.start_isSound sub
  have rooted := plays.isRooted sound (by
    rintro ⟨place, listed, saves⟩
    rw [plain place listed] at saves
    cases saves) command (input.start_isRooted sub action).1
  exact rooted.forest.isProper (plays.isSound sound).tree

/-- Without deferred arguments every statement of a recovered tree has one place. -/
theorem recover_isProper
    (plain : ∀ place ∈ input.program.body sub, (input.program.opcode place).isStateSave = false)
    (recovered : input.recover sub = .ok tree) : tree.IsProper := by
  obtain ⟨last, ran, rfl⟩ := exists_of_recover recovered
  exact (Resembles.of_finishes (finishes_finish input last.tree)).isProper (run_isProper plain ran)

/-- Without deferred arguments child statements link to their holders in every recovered tree, and none
has two places, before and after the cleanup. -/
theorem recover_keepsPlaces
    (plain : ∀ place ∈ input.program.body sub, (input.program.opcode place).isStateSave = false)
    (recovered : input.recover sub = .ok tree) :
    tree.KeepsPlaces ∧ tree.cleanup.1.KeepsPlaces := by
  have proper := recover_isProper plain recovered
  obtain ⟨action, -⟩ := input.catalog.exists_isCommand
  have cleaned : tree.cleanup.1.IsProper := (@cleanup_keepsCalls _ action proper).proper
  exact ⟨proper.keepsPlaces, cleaned.keepsPlaces⟩

/-- A number is reserved and assigned, and a call stands under a condition. -/
def signalling : RecoveryInput :=
  ofLiveCode [.simple .reserve .int, .constant (.int 1), ⟨.copyDown, .void, .stack (-8) 4⟩,
    ⟨.moveStack, .void, .offset (-4)⟩, .constant (.int 1), .jump .jumpZero 11,
    ⟨.action, .void, .action 7 0⟩, ⟨.moveStack, .void, .offset (-4)⟩, .simple .ret .void] (by simp)
    [(7, .plain "Beep" .void [])]

/-- The body holds the declaration, the assignment and the branch; the cleanup makes the assigned value
the initial one. -/
theorem recover_keepsPlaces_signalling : ∃ tree, signalling.recover 0 = .ok tree ∧
    tree.KeepsPlaces ∧ tree.cleanup.1.KeepsPlaces ∧
    (tree.children root).length = 3 ∧ (tree.cleanup.1.children root).length = 2 := by
  have check : (signalling.recover 0).toOption.any (fun tree =>
      (tree.children root).length = 3 ∧ (tree.cleanup.1.children root).length = 2) = true := by
    decide +kernel
  have plain : ∀ place ∈ signalling.program.body 0,
      (signalling.program.opcode place).isStateSave = false := by decide +kernel
  cases recovered : signalling.recover 0 with
  | error fault => simp [recovered, Except.toOption] at check
  | ok tree =>
      simp only [recovered, Except.toOption, Option.any_some, decide_eq_true_eq] at check
      obtain ⟨before, after⟩ := recover_keepsPlaces plain recovered
      exact ⟨tree, rfl, before, after, check⟩

end RecoveryInput
end NwScript
