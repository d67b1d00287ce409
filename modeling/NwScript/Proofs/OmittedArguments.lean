import NwScript.Proofs.FinishedTrees
import NwScript.Proofs.TreeWalks

/-!
# Omitted arguments

How many arguments a call keeps is read off the tree before any call is changed: the fewest behind which
every argument is written like the default value of its parameter.  A call that is met several times is
cut to the same length each time, so the cuts do not depend on their order or on each other.
-/

namespace NwScript

namespace ActionSignature

/-- Overwriting replaces what it has a value for and keeps the rest. -/
theorem getElem?_overwrite (entries : List (Option String)) (values : List String) (index : Nat) :
    (overwrite entries values)[index]? = entries[index]?.map fun entry => values[index]?.or entry := by
  induction entries generalizing values index with
  | nil => simp [overwrite]
  | cons entry entries induction =>
      cases values with
      | nil => simp [overwrite]
      | cons value values =>
          cases index with
          | zero => rfl
          | succ index => simpa [overwrite] using induction values index

/-- Default values belong to the last parameters: each parameter has an entry, and the values stand at
its end, or at its beginning if there are more of them. -/
theorem getElem?_defaults_withDefaults (name : String) (returnType : Ty) (params : List Ty)
    (values : List String) (index : Nat) :
    ((plain name returnType params).withDefaults values).defaults[index]? =
      params[index]?.map fun _ =>
        if params.length - values.length ≤ index then
          values[index - (params.length - values.length)]?
        else
          none := by
  rw [withDefaults, plain]
  dsimp only
  generalize front : params.length - values.length = start
  rw [List.getElem?_append, List.length_take, List.length_map,
    Nat.min_eq_left (front ▸ Nat.sub_le _ _)]
  split
  · rename_i before
    rw [List.getElem?_take_of_lt before, List.getElem?_map]
    exact Option.map_congr fun _ _ => (if_neg (Nat.not_le.mpr before)).symm
  · rename_i behind
    have reached := Nat.not_lt.mp behind
    rw [getElem?_overwrite, List.getElem?_drop, Nat.add_sub_cancel' reached, List.getElem?_map,
      Option.map_map]
    refine Option.map_congr fun _ _ => ?_
    rw [Function.comp_apply, Option.or_none, if_pos reached]

end ActionSignature

namespace ScriptTree

variable {tree : ScriptTree} {catalog : ActionCatalog} {id : NodeId} {action index kept : Nat}
  {arguments : List NodeId}

/-- An argument says nothing: its parameter has a default value, and the argument is written like it. -/
def IsRedundant (tree : ScriptTree) (catalog : ActionCatalog) (action index : Nat) (argument : NodeId) :
    Prop :=
  ∃ signature, catalog.find? action = some signature ∧
    signature.defaults[index]? = some (some (tree.render argument))

/-- The shortest beginning of some arguments that may be kept: all behind it are redundant, and no
shorter one has only redundant arguments behind it. -/
structure IsShortest (tree : ScriptTree) (catalog : ActionCatalog) (action : Nat)
    (arguments : List NodeId) (kept : Nat) : Prop where
  /-- It is a beginning. -/
  le : kept ≤ arguments.length
  /-- What is dropped is redundant. -/
  redundant : ∀ {index : Nat} {argument : NodeId}, kept ≤ index → arguments[index]? = some argument →
    tree.IsRedundant catalog action index argument
  /-- Less is not enough. -/
  least : ∀ fewer < kept, ∃ index argument, fewer ≤ index ∧ arguments[index]? = some argument ∧
    ¬tree.IsRedundant catalog action index argument

section Counting

variable {signature : ActionSignature}

theorem isDefault_iff (known : catalog.find? action = some signature) (index : Nat) (argument : NodeId) :
    tree.isDefault signature.defaults index argument ↔ tree.IsRedundant catalog action index argument := by
  rw [isDefault, decide_eq_true_iff, Option.join_eq_some_iff]
  constructor
  · exact fun same => ⟨signature, known, same⟩
  · rintro ⟨other, there, same⟩
    obtain rfl := Option.some.inj (there.symm.trans known)
    exact same

/-- Arguments behind the kept ones are defaults. -/
theorem isDefault_of_keptFrom_le {defaults : List (Option String)} {before : Nat} {argument : NodeId}
    (behind : tree.keptFrom defaults before arguments ≤ index) (found : arguments[index]? = some argument) :
    tree.isDefault defaults (before + index) argument := by
  induction arguments generalizing before index with
  | nil => cases found
  | cons first arguments induction =>
      rw [keptFrom] at behind
      cases index with
      | zero =>
          obtain rfl := Option.some.inj found
          split at behind
          · split at behind
            · assumption
            · cases behind
          · cases behind
      | succ index =>
          have rest : tree.keptFrom defaults (before + 1) arguments ≤ index := by
            split at behind <;> omega
          rw [← Nat.add_assoc, Nat.add_right_comm]
          exact induction rest found

/-- The last kept argument is no default. -/
theorem exists_last_of_keptFrom_eq {defaults : List (Option String)} {before : Nat}
    (counted : tree.keptFrom defaults before arguments = kept + 1) :
    ∃ argument, arguments[kept]? = some argument ∧
      tree.isDefault defaults (before + kept) argument = false := by
  induction arguments generalizing before kept with
  | nil => cases counted
  | cons first arguments induction =>
      rw [keptFrom] at counted
      split at counted
      · split at counted
        · cases counted
        · rename_i other
          obtain rfl : kept = 0 := (Nat.succ.inj counted).symm
          exact ⟨first, rfl, Bool.eq_false_iff.mpr other⟩
      · rename_i more rest
        obtain rfl : kept = more + 1 := (Nat.succ.inj counted).symm
        obtain ⟨argument, found, other⟩ := induction rest
        exact ⟨argument, found, by rwa [Nat.add_right_comm] at other⟩

/-- The count of a known action is that of the shortest beginning. -/
theorem isShortest_keptFrom (known : catalog.find? action = some signature) (arguments : List NodeId) :
    tree.IsShortest catalog action arguments (tree.keptFrom signature.defaults 0 arguments) where
  le := tree.keptFrom_le_length _ _ _
  redundant := fun {index argument} behind found => by
    have default := isDefault_of_keptFrom_le behind found
    rw [Nat.zero_add] at default
    exact (isDefault_iff known index argument).mp default
  least := fun fewer less => by
    obtain ⟨kept, counted⟩ := Nat.exists_eq_succ_of_ne_zero (Nat.ne_zero_of_lt less)
    obtain ⟨argument, found, other⟩ := exists_last_of_keptFrom_eq counted
    rw [Nat.zero_add] at other
    refine ⟨kept, argument, Nat.le_of_lt_succ (counted ▸ less), found, fun redundant => ?_⟩
    exact Bool.false_ne_true (other.symm.trans ((isDefault_iff known kept argument).mpr redundant))

/-- An unknown action keeps all its arguments. -/
theorem isShortest_length (unknown : catalog.find? action = none) (arguments : List NodeId) :
    tree.IsShortest catalog action arguments arguments.length where
  le := Nat.le_refl _
  redundant := fun behind found =>
    absurd (List.getElem?_eq_some_iff.mp found).1 (Nat.not_lt.mpr behind)
  least := fun fewer less => by
    refine ⟨fewer, _, Nat.le_refl _, List.getElem?_eq_getElem less, ?_⟩
    rintro ⟨signature, known, -⟩
    cases unknown.symm.trans known

/-- There is one shortest beginning. -/
theorem IsShortest.unique {other : Nat} (shortest : tree.IsShortest catalog action arguments kept)
    (rival : tree.IsShortest catalog action arguments other) : kept = other := by
  rcases Nat.lt_trichotomy kept other with less | same | more
  · obtain ⟨index, argument, behind, found, needed⟩ := rival.least kept less
    exact absurd (shortest.redundant behind found) needed
  · exact same
  · obtain ⟨index, argument, behind, found, needed⟩ := shortest.least other more
    exact absurd (rival.redundant behind found) needed

end Counting

section Cutting

theorem node_cutAll_of_forall_ne {cuts : List (NodeId × Nat)} (other : ∀ cut ∈ cuts, cut.1 ≠ id) :
    (tree.cutAll cuts).node id = tree.node id := by
  induction cuts generalizing tree with
  | nil => rfl
  | cons cut cuts induction =>
      obtain ⟨first, others⟩ := List.forall_mem_cons.mp other
      exact (induction others).trans (node_modify_of_ne first _)

/-- A call that is always cut to the same length has that length in the end. -/
theorem node_cutAll_of_mem {cuts : List (NodeId × Nat)} (inside : id < tree.size)
    (listed : (id, kept) ∈ cuts) (same : ∀ cut ∈ cuts, cut.1 = id → cut.2 = kept) :
    (tree.cutAll cuts).node id = keepArguments kept (tree.node id) := by
  induction cuts generalizing tree with
  | nil => cases listed
  | cons cut cuts induction =>
      obtain ⟨here, others⟩ := List.forall_mem_cons.mp same
      have within : id < (tree.modify cut.1 (keepArguments cut.2)).size := by
        rw [size_modify]
        exact inside
      show ((tree.modify cut.1 (keepArguments cut.2)).cutAll cuts).node id = _
      by_cases cut_here : cut.1 = id
      · have now : (tree.modify cut.1 (keepArguments cut.2)).node id =
            keepArguments kept (tree.node id) := by
          rw [cut_here, here cut_here, node_modify_self inside]
        by_cases again : (id, kept) ∈ cuts
        · rw [induction within again others, now, keepArguments_keepArguments, Nat.min_self]
        · refine (node_cutAll_of_forall_ne fun next later back => again ?_).trans now
          rw [← back, ← others next later back]
          exact later
      · have later : (id, kept) ∈ cuts := by
          rcases List.mem_cons.mp listed with first | later
          · exact absurd (congrArg Prod.fst first).symm cut_here
          · exact later
        rw [induction within later others, node_modify_of_ne cut_here]

/-- Each node of a walk has one cut, if it is a call of a known action. -/
theorem mem_cuts_iff : (id, kept) ∈ tree.cuts catalog ↔
    tree.Reaches root id ∧ tree.keptArguments? catalog id = some kept := by
  rw [cuts, List.mem_filterMap]
  constructor
  · rintro ⟨other, met, cut⟩
    obtain ⟨count, counted, same⟩ := Option.map_eq_some_iff.mp cut
    obtain ⟨rfl, rfl⟩ := Prod.mk.inj same
    exact ⟨mem_walk_iff.mp met, counted⟩
  · rintro ⟨reaches, counted⟩
    exact ⟨id, mem_walk_iff.mpr reaches, by rw [counted]; rfl⟩

/-- Only calls of known actions count their arguments. -/
theorem keptArguments?_of_node {name : String} (here : tree.node id = .action action name arguments) :
    tree.keptArguments? catalog id =
      (catalog.find? action).map fun signature => tree.keptFrom signature.defaults 0 arguments := by
  rw [keptArguments?, here]

theorem lt_of_keptArguments? (counted : tree.keptArguments? catalog id = some kept) : id < tree.size := by
  by_contra outside
  rw [keptArguments?, node_of_le (Nat.not_lt.mp outside)] at counted
  cases counted

/-- What is met and counts its arguments is cut to the count. -/
theorem node_omitDefaults (reaches : tree.Reaches root id)
    (counted : tree.keptArguments? catalog id = some kept) :
    (tree.omitDefaults catalog).node id = keepArguments kept (tree.node id) := by
  refine node_cutAll_of_mem (lt_of_keptArguments? counted) (mem_cuts_iff.mpr ⟨reaches, counted⟩) ?_
  rintro ⟨other, count⟩ listed rfl
  exact Option.some.inj ((mem_cuts_iff.mp listed).2.symm.trans counted)

/-- Everything else stays. -/
theorem node_omitDefaults_of_ne (other : tree.Reaches root id → tree.keptArguments? catalog id = none) :
    (tree.omitDefaults catalog).node id = tree.node id := by
  refine node_cutAll_of_forall_ne ?_
  rintro ⟨cut, count⟩ listed rfl
  obtain ⟨reaches, counted⟩ := mem_cuts_iff.mp listed
  cases (other reaches).symm.trans counted

end Cutting

/-- Leaving out default arguments changes nodes only, and of these only the calls of actions that can be
reached.  Each of them keeps the shortest beginning of its arguments behind which all are written, in
the tree as it was, like the default values of their parameters. -/
theorem omitDefaults_keeps_shortest (tree : ScriptTree) (catalog : ActionCatalog) :
    tree.omitDefaults catalog = { tree with nodes := (tree.omitDefaults catalog).nodes } ∧
    (tree.omitDefaults catalog).size = tree.size ∧
    (∀ {id action name arguments}, tree.Reaches root id → tree.node id = .action action name arguments →
      ∃ kept, tree.IsShortest catalog action arguments kept ∧
        (tree.omitDefaults catalog).node id = .action action name (arguments.take kept)) ∧
    ∀ {id}, (¬tree.Reaches root id ∨ ∀ action name arguments, tree.node id ≠ .action action name arguments) →
      (tree.omitDefaults catalog).node id = tree.node id := by
  refine ⟨tree.omitDefaults_eq_nodes catalog, (Finishes.omitDefaults tree catalog).size,
    fun {id action name arguments} reaches here => ?_, fun {id} other => ?_⟩
  · have counts : tree.keptArguments? catalog id = _ := keptArguments?_of_node here
    cases known : catalog.find? action with
    | none =>
        rw [known, Option.map_none] at counts
        refine ⟨_, isShortest_length known arguments, ?_⟩
        rw [node_omitDefaults_of_ne fun _ => counts, here, List.take_length]
    | some signature =>
        rw [known, Option.map_some] at counts
        refine ⟨_, isShortest_keptFrom known arguments, ?_⟩
        rw [node_omitDefaults reaches counts, here, keepArguments]
  · refine node_omitDefaults_of_ne fun reaches => ?_
    rcases other with unreached | plain
    · exact absurd reaches unreached
    · cases here : tree.node id with
      | action action name arguments => exact absurd here (plain action name arguments)
      | _ => rw [keptArguments?, here]

/-- A call with a call that may be left out as its second argument, whose own argument may be left out. -/
def nestedCalls : ScriptTree where
  nodes := #[.block { children := [1], start := 13, limit := 40 }, .statement 2,
    .action 1 "First" [3, 4], .literal (.int 1), .action 2 "Second" [5], .literal (.int 5)]
  parents := #[none, some 0, some 1, some 2, some 2, some 4]
  vars := .empty
  sub := 0
  kind := .function
  signature := { name := "main", returnType := .void }
  structs := .empty
  indent := ""

/-- The last parameters of both actions have default values. -/
def nestedDefaults : ActionCatalog where
  entries := [(1, (ActionSignature.plain "First" .void [.int, .int]).withDefaults ["Second(5)"]),
    (2, (ActionSignature.plain "Second" .int [.int]).withDefaults ["5"])]

/-- The inner call equals the default value as it was before its own argument is left out. -/
theorem omitDefaults_keeps_shortest_nested : nestedCalls.Reaches root 2 ∧
    ∃ kept, nestedCalls.IsShortest nestedDefaults 1 [3, 4] kept ∧
      (nestedCalls.omitDefaults nestedDefaults).node 2 = .action 1 "First" ([3, 4].take kept) := by
  have reaches : nestedCalls.Reaches root 2 := mem_walk_iff.mp (by decide)
  exact ⟨reaches, (omitDefaults_keeps_shortest nestedCalls nestedDefaults).2.2.1 reaches rfl⟩

example : (nestedCalls.omitDefaults nestedDefaults).node 2 = .action 1 "First" [3] ∧
    (nestedCalls.omitDefaults nestedDefaults).node 4 = .action 2 "Second" [] := by
  decide +kernel

end ScriptTree
end NwScript
