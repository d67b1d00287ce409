import NwScript.Proofs.DeclaredWholes
import NwScript.Proofs.FoldedValues

/-!
# Aggregates and members as a forest

That a variable is a member of an aggregate is written down twice, as a link of the member and in the list
of the aggregate.  Both are written when the aggregate is made, which has a higher number than any variable
that is there already.  So links lead upwards and climbing them ends, as long as aggregates are made of
variables that exist and are free.
-/

namespace NwScript

namespace VarTable

/-- What can be done to a table. -/
inductive Operation where
  /-- Add a variable. -/
  | add (entry : Variable)
  /-- Make an aggregate of some variables if all of them are free. -/
  | group (members : List VarId)
  /-- Make an aggregate of some variables without asking. -/
  | aggregate (members : List VarId)

/-- The table behind an operation. -/
def perform (table : VarTable) : Operation → VarTable
  | .add entry => (table.add entry).1
  | .group members => (table.group members).1
  | .aggregate members => (table.aggregate members).1

/-- The table behind some operations. -/
def run (table : VarTable) (operations : List Operation) : VarTable :=
  operations.foldl perform table

/-- A variable exists and is no member. -/
def IsFree (table : VarTable) (id : VarId) : Prop :=
  id < table.size ∧ table.parent? id = none

instance (table : VarTable) (id : VarId) : Decidable (table.IsFree id) :=
  inferInstanceAs (Decidable (_ ∧ _))

/-- What callers keep to: new variables stand alone, and whoever does not ask knows the members to be
free. -/
def Permits (table : VarTable) : Operation → Prop
  | .add entry => entry.parent = none ∧ entry.members = []
  | .group _ => True
  | .aggregate members => ∀ member ∈ members, table.IsFree member

/-- Callers keep to it all the way. -/
def PermitsAll (table : VarTable) : List Operation → Prop
  | [] => True
  | operation :: operations => table.Permits operation ∧ (table.perform operation).PermitsAll operations

/-- Members and aggregates agree about each other, and aggregates come behind their members. -/
structure IsForest (table : VarTable) : Prop where
  /-- A link leads to a variable with a higher number. -/
  rising : ∀ member whole, table.parent? member = some whole → member < whole
  /-- A variable links to an aggregate exactly if the aggregate lists it. -/
  linked : ∀ member whole, table.parent? member = some whole ↔ member ∈ table.members whole

/-- From every variable the links lead to one without, after finitely many of them. -/
structure HasRoots (table : VarTable) : Prop where
  /-- There is no endless climb. -/
  finite : WellFounded fun whole member => table.parent? member = some whole
  /-- Links lead to the root. -/
  path : ∀ id, table.IsPart id (table.root id)
  /-- The root has no link. -/
  top : ∀ id, table.parent? (table.root id) = none
  /-- The root of a root is the root. -/
  again : ∀ id, table.root (table.root id) = table.root id
  /-- The root of a variable is a variable. -/
  inside : ∀ id < table.size, table.root id < table.size

variable {table : VarTable} {members : List VarId}

section Free

theorem allFree_iff : table.allFree members = true ↔ ∀ member ∈ members, table.IsFree member := by
  rw [allFree, List.all_eq_true]
  refine forall₂_congr fun member _ => ?_
  rw [IsFree, parent?]
  cases found : table.get? member with
  | none => simp [Nat.not_lt.mpr (get?_eq_none_iff.mp found)]
  | some entry => simp [lt_of_get? found]

theorem not_isFree_iff {id : VarId} :
    ¬table.IsFree id ↔ table.get? id = none ∨ (table.parent? id).isSome := by
  rw [IsFree, parent?]
  cases found : table.get? id with
  | none => simp [get?_eq_none_iff.mp found]
  | some entry => simp [lt_of_get? found, Option.isSome_iff_ne_none]

theorem group_of_allFree (free : table.allFree members = true) :
    table.group members = ((table.aggregate members).1, some table.size) := by
  rw [group, if_pos free]
  rfl

/-- Grouping is refused, and nothing changed, exactly if some variable is not free. -/
theorem group_eq_none_iff : table.group members = (table, none) ↔
    ∃ member ∈ members, table.get? member = none ∨ (table.parent? member).isSome := by
  simp only [← not_isFree_iff]
  cases free : table.allFree members with
  | true =>
      rw [group_of_allFree free]
      refine iff_of_false (fun same => Option.some_ne_none _ (Prod.mk.inj same).2) ?_
      rintro ⟨member, listed, taken⟩
      exact taken (allFree_iff.mp free member listed)
  | false =>
      rw [group_of_not_free free]
      refine iff_of_true rfl ?_
      by_contra all
      push Not at all
      cases free.symm.trans (allFree_iff.mpr all)

end Free

section Step

theorem members_eq_nil_of_le {id : VarId} (outside : table.size ≤ id) : table.members id = [] := by
  rw [VarTable.members, get?_eq_none_iff.mpr outside]
  rfl

theorem members_add (table : VarTable) (entry : Variable) (id : VarId) :
    (table.add entry).1.members id = if id = table.size then entry.members else table.members id := by
  rw [VarTable.members, get?_add, VarTable.members]
  split <;> rfl

theorem members_aggregate (table : VarTable) (members : List VarId) (id : VarId) :
    (table.aggregate members).1.members id = if id = table.size then members else table.members id := by
  obtain ⟨entry, same, -, -, lists⟩ := table.exists_aggregate_eq members
  rw [lists, members_add, same]

theorem isForest_empty : empty.IsForest where
  rising := nofun
  linked _ _ := iff_of_false nofun List.not_mem_nil

/-- A new variable stands apart from all others. -/
theorem IsForest.add (forest : table.IsForest) {entry : Variable} (free : entry.parent = none)
    (single : entry.members = []) : (table.add entry).1.IsForest := by
  have parents : (table.add entry).1.parent? = table.parent? := by
    funext id
    rw [parent?_add, free]
    split
    · rename_i new
      rw [parent?_of_le (Nat.le_of_eq new.symm)]
    · rfl
  have lists : (table.add entry).1.members = table.members := by
    funext id
    rw [members_add, single]
    split
    · rename_i new
      rw [members_eq_nil_of_le (Nat.le_of_eq new.symm)]
    · rfl
  constructor
  · rw [parents]
    exact forest.rising
  · rw [parents, lists]
    exact forest.linked

/-- Free variables are below an aggregate of them, and no aggregate listed them before. -/
theorem IsForest.aggregate (forest : table.IsForest) (free : ∀ member ∈ members, table.IsFree member) :
    (table.aggregate members).1.IsForest := by
  constructor
  · intro member whole linked
    rw [parent?_aggregate] at linked
    split at linked
    · rename_i new
      cases linked
      exact (free member new.1).1
    · exact forest.rising member whole linked
  · intro member whole
    rw [parent?_aggregate, members_aggregate]
    by_cases listed : member ∈ members
    · obtain ⟨inside, unlinked⟩ := free member listed
      rw [if_pos ⟨listed, Nat.le_of_lt inside⟩, Option.some.injEq]
      split
      · rename_i new
        exact iff_of_true new.symm listed
      · rename_i old
        refine iff_of_false (Ne.symm old) fun former => ?_
        cases unlinked.symm.trans ((forest.linked member whole).mpr former)
    · rw [if_neg fun new => listed new.1, forest.linked]
      split
      · rename_i new
        rw [members_eq_nil_of_le (Nat.le_of_eq new.symm)]
        exact iff_of_false List.not_mem_nil listed
      · exact Iff.rfl

theorem IsForest.group (forest : table.IsForest) (members : List VarId) :
    (table.group members).1.IsForest := by
  cases free : table.allFree members with
  | true =>
      rw [group_of_allFree free]
      exact forest.aggregate (allFree_iff.mp free)
  | false => rwa [group_of_not_free free]

theorem IsForest.perform (forest : table.IsForest) {operation : Operation}
    (permitted : table.Permits operation) : (table.perform operation).IsForest := by
  cases operation with
  | add entry => exact forest.add permitted.1 permitted.2
  | group members => exact forest.group members
  | aggregate members => exact forest.aggregate permitted

theorem IsForest.run (forest : table.IsForest) {operations : List Operation}
    (permitted : table.PermitsAll operations) : (table.run operations).IsForest := by
  induction operations generalizing table with
  | nil => exact forest
  | cons operation operations induction => exact induction (forest.perform permitted.1) permitted.2

end Step

section Roots

/-- A climb from a variable has as many links ahead as there are variables with higher numbers. -/
theorem IsForest.climbs (forest : table.IsForest) {steps : Nat} {id : VarId}
    (room : table.size ≤ id + steps) : table.IsPart id (table.rootFrom steps id) ∧
      table.parent? (table.rootFrom steps id) = none := by
  induction steps generalizing id with
  | zero =>
      refine ⟨.refl, ?_⟩
      by_contra linked
      obtain ⟨whole, linked⟩ := Option.ne_none_iff_exists'.mp linked
      exact Nat.not_le.mpr (lt_of_parent? linked) room
  | succ steps induction =>
      rw [rootFrom]
      cases linked : table.parent? id with
      | none => exact ⟨.refl, linked⟩
      | some whole =>
          have higher := forest.rising id whole linked
          have ahead : table.size ≤ whole + steps := calc
            table.size ≤ id + (steps + 1) := room
            _ = id + 1 + steps := (Nat.succ_add_eq_add_succ id steps).symm
            _ ≤ whole + steps := Nat.add_le_add_right higher steps
          obtain ⟨path, top⟩ := induction ahead
          exact ⟨.head linked path, top⟩

theorem IsForest.hasRoots (forest : table.IsForest) : table.HasRoots := by
  have climbs (id : VarId) := @IsForest.climbs table forest table.size id (Nat.le_add_left _ _)
  constructor
  · refine Subrelation.wf ?_ (measure fun id => table.size - id).wf
    intro whole member linked
    have higher := forest.rising member whole linked
    have inside := lt_of_parent? linked
    exact Nat.sub_lt_sub_left inside higher
  · exact fun id => (climbs id).1
  · exact fun id => (climbs id).2
  · exact fun id => root_eq_self (climbs id).2
  · intro id inside
    rcases Relation.ReflTransGen.cases_tail (climbs id).1 with same | ⟨member, -, linked⟩
    · rw [root, same]
      exact inside
    · obtain ⟨entry, found, -⟩ := exists_of_mem_members ((forest.linked _ _).mp linked)
      exact lt_of_get? found

end Roots

/-- Variables that stand alone are added, variables are grouped, and aggregates are made of free variables,
which may be named more than once.  Then links lead upwards, a variable links to an aggregate exactly if the
aggregate lists it, and climbing ends at the root, which has no link and is its own root.  To group variables
of which one is unknown or a member already is refused without any change, and nothing else is. -/
theorem run_isForest (operations : List Operation) (permitted : empty.PermitsAll operations) :
    (empty.run operations).IsForest ∧ (empty.run operations).HasRoots ∧
      ∀ members, (empty.run operations).group members = (empty.run operations, none) ↔
        ∃ member ∈ members, (empty.run operations).get? member = none ∨
          ((empty.run operations).parent? member).isSome := by
  have forest := isForest_empty.run permitted
  exact ⟨forest, forest.hasRoots, fun _ => group_eq_none_iff⟩

/-- A vector and a flag in a structure. -/
def nestedVector : List Operation :=
  [.add { kind := .localVar, type := .float }, .add { kind := .localVar, type := .float },
    .add { kind := .localVar, type := .float }, .group [0, 1, 2], .add { kind := .localVar, type := .int },
    .aggregate [3, 4]]

/-- The first component has the structure as root, and the vector can not be grouped once more. -/
theorem run_isForest_nestedVector : empty.PermitsAll nestedVector ∧
    (empty.run nestedVector).root 0 = 5 ∧ (empty.run nestedVector).root 5 = 5 ∧
      (empty.run nestedVector).group [3] = (empty.run nestedVector, none) := by
  have permitted : empty.PermitsAll nestedVector := by
    refine ⟨⟨rfl, rfl⟩, ⟨rfl, rfl⟩, ⟨rfl, rfl⟩, trivial, ⟨rfl, rfl⟩, ?_, trivial⟩
    show ∀ member ∈ [3, 4], IsFree _ member
    decide
  obtain ⟨-, roots, refused⟩ := run_isForest nestedVector permitted
  have top : (empty.run nestedVector).root 0 = 5 := by decide
  exact ⟨permitted, top, top ▸ roots.again 0, (refused [3]).mpr ⟨3, List.mem_singleton_self 3, .inr rfl⟩⟩

/-- An unknown variable has no link either.  An aggregate of the one that comes next is that variable, so it
links to itself and climbing never ends.  A variable that is added with a link keeps it. -/
theorem run_unknown_circles : (empty.parent? 0 = none ∧ [0].Nodup) ∧
    (empty.run [.aggregate [0]]).parent? 0 = some 0 ∧ ¬(empty.run [.aggregate [0]]).IsForest ∧
      ¬(empty.run [.aggregate [0]]).HasRoots ∧
        ¬(empty.run [.add { kind := .localVar, type := .int, parent := some 0 }]).IsForest := by
  have circles : (empty.run [.aggregate [0]]).parent? 0 = some 0 := rfl
  refine ⟨⟨rfl, List.nodup_singleton 0⟩, circles, fun forest => ?_, fun roots => ?_, fun forest => ?_⟩
  · exact Nat.lt_irrefl 0 (forest.rising 0 0 circles)
  · exact roots.finite.asymmetric 0 0 circles circles
  · exact Nat.lt_irrefl 0 (forest.rising 0 0 rfl)

end VarTable
end NwScript
