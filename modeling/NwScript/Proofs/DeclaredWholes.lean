import NwScript.Proofs.MemberDeclarations
import NwScript.Proofs.StatementPlaces

/-!
# Declared variables

Parameters and locals are declared before a copy of several slots groups them.  The members of an
aggregate are then declared one by one, and the signature keeps the members as parameters.  A cleanup
repairs the bodies where the declarations stand in runs, and never the signature.
-/

namespace NwScript

namespace VarTable

/-- Members are listed by the aggregate that they link to. -/
def ListsMembers (table : VarTable) : Prop :=
  ∀ member whole, table.parent? member = some whole → member ∈ table.members whole

variable {table before after : VarTable}

theorem ListsMembers.isOneLevel (lists : table.ListsMembers) (flat : table.IsFlat) :
    table.IsOneLevel := by
  intro whole some_member
  by_contra linked
  obtain ⟨outer, linked⟩ := Option.ne_none_iff_exists'.mp linked
  exact some_member (flat (lists _ _ linked)).2

theorem Alike.listsMembers (alike : before.Alike after) (lists : before.ListsMembers) :
    after.ListsMembers := by
  intro member whole linked
  rw [alike.parent?] at linked
  rw [alike.members]
  exact lists member whole linked

/-- Changes of other properties than the links between aggregates and members, one after another. -/
theorem Alike.foldl_modify {change : Variable → Variable} (kept : ∀ entry,
    (change entry).parent = entry.parent ∧ (change entry).members = entry.members)
    (ids : List VarId) (table : VarTable) :
    table.Alike (ids.foldl (fun table id => table.modify id change) table) := by
  induction ids generalizing table with
  | nil => exact .refl table
  | cons id ids induction => exact (Alike.modify table id change kept).trans (induction _)

theorem get?_eq_none_iff {id : VarId} : table.get? id = none ↔ table.size ≤ id :=
  Array.getElem?_eq_none_iff

theorem parent?_of_le {id : VarId} (outside : table.size ≤ id) : table.parent? id = none := by
  rw [parent?, get?_eq_none_iff.mpr outside]
  rfl

theorem parent?_add (table : VarTable) (entry : Variable) (id : VarId) :
    (table.add entry).1.parent? id = if id = table.size then entry.parent else table.parent? id := by
  rw [parent?, get?_add, parent?]
  split <;> rfl

theorem parent?_link (aggregate : VarId) (table : VarTable) (member id : VarId) :
    (table.modify member fun entry => { entry with parent := some aggregate }).parent? id =
      if id = member ∧ id < table.size then some aggregate else table.parent? id := by
  rw [parent?, get?_modify, parent?]
  cases found : table.get? id with
  | none => simp [Nat.not_lt.mpr (get?_eq_none_iff.mp found)]
  | some entry =>
      by_cases here : member = id
      · simp [here, lt_of_get? found]
      · simp [here, Ne.symm here]

/-- Variables that are linked to an aggregate link to it, and the others where they did before. -/
theorem parent?_foldl_link (aggregate : VarId) (members : List VarId) (table : VarTable) (id : VarId) :
    (members.foldl (fun table member =>
      table.modify member fun entry => { entry with parent := some aggregate }) table).parent? id =
        if id ∈ members ∧ id < table.size then some aggregate else table.parent? id := by
  induction members generalizing table with
  | nil => simp
  | cons first members induction =>
      rw [List.foldl_cons, induction, size_modify, parent?_link]
      by_cases here : id = first
      · subst here
        by_cases inside : id < table.size <;> simp [inside]
      · simp [here]

/-- The members of a new aggregate link to it, as far as they are variables by then. -/
theorem parent?_aggregate (table : VarTable) (members : List VarId) (id : VarId) :
    (table.aggregate members).1.parent? id =
      if id ∈ members ∧ id ≤ table.size then some table.size else table.parent? id := by
  unfold aggregate
  dsimp only
  rw [add_snd, parent?_foldl_link, size_add, parent?_add]
  by_cases new : id = table.size
  · simp [new, parent?_of_le (Nat.le_refl _)]
  · simp [new, Nat.lt_succ_iff]

end VarTable

namespace ScriptTree

variable {catalog : ActionCatalog} {tree : ScriptTree} {vars : VarTable}

open VarTable in
theorem VarEdit.listsMembers (edit : VarEdit catalog tree vars) (lists : tree.vars.ListsMembers) :
    vars.ListsMembers := by
  have kept : ∀ {member whole}, tree.vars.parent? member = some whole → member ∈ vars.members whole := by
    intro member whole linked
    have listed := lists member whole linked
    obtain ⟨_, found, _⟩ := exists_of_mem_members listed
    rwa [edit.grows.members whole (lt_of_get? found)]
  have added : ∀ {entry : Variable} {member whole}, entry.parent = none →
      (tree.vars.add entry).1.parent? member = some whole → member ∈ vars.members whole := by
    intro entry member whole free linked
    rw [VarTable.parent?, get?_add] at linked
    split at linked
    · simp [free] at linked
    · exact kept linked
  cases edit with
  | add values undeclared free single => exact fun _ _ => added free
  | @aggregate members leaves =>
      intro member whole linked
      obtain ⟨entry, same, _, _, lists⟩ := tree.vars.exists_aggregate_eq members
      rw [parent?_aggregate] at linked
      split at linked
      · rename_i here
        cases linked
        rw [lists, members_add_self, same]
        exact here.1
      · exact kept linked
  | @revalue var change values =>
      refine (Alike.modify _ var change fun entry => ?_).listsMembers lists
      obtain ⟨_, _, same, _⟩ := values entry
      rw [same]
      exact ⟨rfl, rfl⟩
  | declare =>
      refine Alike.listsMembers ?_ lists
      exact .modify _ _ _ fun _ => ⟨rfl, rfl⟩
  | undeclare =>
      refine Alike.listsMembers ?_ lists
      exact .modify _ _ _ fun _ => ⟨rfl, rfl⟩
  | discard =>
      refine Alike.listsMembers ?_ lists
      exact .foldl_modify (by exact fun _ => ⟨rfl, rfl⟩) _ _

theorem Edits.listsMembers {before after : ScriptTree} (edits : Edits catalog before after)
    (lists : before.vars.ListsMembers) : after.vars.ListsMembers := by
  induction edits with
  | refl => exact lists
  | tail _ edit induction =>
      rcases edit.vars_cases with edit | same
      · exact edit.listsMembers induction
      · rwa [same]

end ScriptTree

namespace RecoveryInput

open ScriptTree

variable {input : RecoveryInput} {sub : Nat} {tree : ScriptTree}

/-- In a recovered tree no aggregate is a member. -/
theorem recover_isOneLevel (recovered : input.recover sub = .ok tree) : tree.vars.IsOneLevel := by
  obtain ⟨last, ran, rfl⟩ := exists_of_recover recovered
  obtain ⟨ids, plays⟩ := exists_plays_run ran
  obtain ⟨-, vars, signature, edits, start⟩ := input.start_tree sub
  have empty : (input.emptyTree sub).vars.ListsMembers := by
    intro member whole linked
    obtain ⟨_, found, _⟩ := Option.bind_eq_some_iff.mp linked
    exact absurd (VarTable.lt_of_get? found) (Nat.not_lt_zero _)
  have begun : (input.start sub).tree.vars.ListsMembers := by
    rw [start]
    exact edits.listsMembers empty
  have lists := plays.vars_induction VarEdit.listsMembers begun
  have one_level := lists.isOneLevel (plays.isSound (input.start_isSound sub)).tree.flat
  exact (finishes_finish input last.tree).vars.isOneLevel one_level

/-- A cleanup never makes a declaration of a member and leaves the signature, and without deferred
arguments it leaves only whole variables declared exactly if no parameter was grouped and the members of
every aggregate were declared side by side, all of them in order and without values. -/
theorem recover_declares_wholes_iff (recovered : input.recover sub = .ok tree) :
    (∀ id, tree.cleanup.1.DeclaresMember id → tree.DeclaresMember id) ∧
      (tree.cleanup.1.DeclaresWholes →
        ∀ param ∈ tree.signature.params, tree.vars.parent? param = none) ∧
      ((∀ place ∈ input.program.body sub, (input.program.opcode place).isStateSave = false) →
        (tree.cleanup.1.DeclaresWholes ↔
          (∀ param ∈ tree.signature.params, tree.vars.parent? param = none) ∧ tree.IsGathered)) := by
  have one_level := recover_isOneLevel recovered
  have added := addsNoMember_cleanup one_level
  have params : (∀ param ∈ tree.cleanup.1.signature.params, tree.cleanup.1.vars.parent? param = none) ↔
      ∀ param ∈ tree.signature.params, tree.vars.parent? param = none := by
    rw [(reshapes_cleanup tree).header.signature, added.vars.parent?]
  refine ⟨fun id => added.declares, fun wholes => params.mp wholes.1, fun plain => ?_⟩
  rw [DeclaresWholes, params, (recover_isProper plain recovered).cleanup_isGathered_iff one_level]

instance (tree : ScriptTree) : Decidable tree.DeclaresWholes :=
  inferInstanceAs (Decidable (_ ∧ _))

/-- Two numbers are reserved one behind the other and copied as a pair. -/
def pairing : RecoveryInput :=
  ofLiveCode [.simple .reserve .int, .simple .reserve .int, ⟨.copyTop, .void, .stack (-8) 8⟩,
    ⟨.moveStack, .void, .offset (-8)⟩, ⟨.moveStack, .void, .offset (-8)⟩, .simple .ret .void] (by simp) []

/-- The declarations of the two numbers stand in a run, so that the pair is declared as a whole. -/
theorem recover_declares_wholes_pairing : ∃ tree, pairing.recover 0 = .ok tree ∧
    (∃ id ∈ tree.walk, tree.DeclaresMember id) ∧ tree.cleanup.1.DeclaresWholes ∧ tree.IsGathered := by
  have check : (pairing.recover 0).toOption.any (fun tree =>
      decide ((∃ id ∈ tree.walk, tree.DeclaresMember id) ∧ tree.cleanup.1.DeclaresWholes)) := by
    decide +kernel
  cases recovered : pairing.recover 0 with
  | error fault => simp [recovered, Except.toOption] at check
  | ok tree =>
      simp only [recovered, Except.toOption, Option.any_some, decide_eq_true_eq] at check
      have plain : ∀ place ∈ pairing.program.body 0,
          (pairing.program.opcode place).isStateSave = false := by decide +kernel
      obtain ⟨-, -, whole⟩ := recover_declares_wholes_iff recovered
      exact ⟨tree, rfl, check.1, check.2, ((whole plain).mp check.2).2⟩

/-- A number is printed after the first one of two is reserved that are copied as a pair. -/
def scattered : RecoveryInput :=
  ofLiveCode [.simple .reserve .int, .constant (.int 1), ⟨.action, .void, .action 4 1⟩,
    .simple .reserve .int, ⟨.copyTop, .void, .stack (-8) 8⟩, ⟨.moveStack, .void, .offset (-8)⟩,
    ⟨.moveStack, .void, .offset (-8)⟩, .simple .ret .void] (by simp)
    [(4, .plain "PrintInteger" .void [.int])]

/-- The call stands between the declarations of the two members, so they stay and are printed with the
names of members. -/
theorem scattered_declares_members : ∃ tree, scattered.recover 0 = .ok tree ∧
    ¬tree.cleanup.1.DeclaresWholes ∧ tree.cleanup.1.text = "void main() \x7b\n    int struct1.field1;\n" ++
      "    PrintInteger(1);\n    int struct1.field2;\n\x7d\n" := by
  have check : (scattered.recover 0).toOption.any (fun tree => decide (¬tree.cleanup.1.DeclaresWholes ∧
      tree.cleanup.1.text = "void main() \x7b\n    int struct1.field1;\n" ++
        "    PrintInteger(1);\n    int struct1.field2;\n\x7d\n")) := by decide +kernel
  cases recovered : scattered.recover 0 with
  | error fault =>
      rw [recovered] at check
      cases check
  | ok tree =>
      rw [recovered] at check
      exact ⟨tree, rfl, of_decide_eq_true check⟩

end RecoveryInput
end NwScript
