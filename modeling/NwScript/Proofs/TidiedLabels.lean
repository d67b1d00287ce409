import NwScript.Proofs.CleanedStatements
import NwScript.Proofs.WordedSteps

/-!
# Labels of finished trees

A finished tree has named variables and calls that may lack arguments, and a cleaned tree has other
declarations and fewer nested scopes.  Neither shows anything that the recovery did not write, so what
the vocabulary of a recovery says about its nodes holds for the nodes that are printed.
-/

namespace NwScript

namespace VarTable

/-- A name that a variable can get: it is made from its type, its class and a number, or marks a
parameter without a type by its position. -/
def IsGiven (entry : Variable) (name : String) : Prop :=
  (∃ number : Nat, name = typePart entry.type ++ kindPart entry.kind ++ toString number) ∨
    entry.type.isFullyTyped = false ∧ ∃ position : Nat, name = "__unresolved_param" ++ toString position

/-- Variables without names stay without names or get such names. -/
theorem Naming.name_isGiven (naming : Naming) {entry : Variable} (unnamed : entry.name = none)
    {name : String} (named : (naming.name entry).1.name = some name) :
    IsGiven (naming.name entry).1 name := by
  by_cases own : IsNamed entry
  · rw [naming.name_of_isNamed own] at named ⊢
    obtain rfl := Option.some.inj named
    rw [label]
    split
    · rename_i untyped
      have undetermined : entry.kind = .param ∧ entry.type.isFullyTyped = false := by
        simpa [isUntyped] using untyped
      exact .inr ⟨undetermined.2, _, rfl⟩
    · exact .inl ⟨_, rfl⟩
  · rw [naming.name_of_not_isNamed own] at named
    cases unnamed.symm.trans named

end VarTable

namespace ScriptTree

/-- A finished tree: of what its nodes show, a vocabulary allows the whole, of which calls may lack some
arguments; references are to variables that stand for no value; and names are given names. -/
structure IsNamed (words : Vocabulary) (tree : ScriptTree) : Prop where
  /-- Labels are allowed, up to arguments. -/
  label : ∀ id, ∃ whole kept, words.allows whole ∧ (tree.node id).label = keepArguments kept whole
  /-- References are to variables that stand for no value. -/
  reference : ∀ {id : NodeId} {var : VarId}, tree.node id = .reference var → tree.vars.IsPlain var
  /-- Names are given names. -/
  name : ∀ {id : VarId} {entry : Variable} {name : String}, tree.vars.get? id = some entry →
    entry.name = some name → VarTable.IsGiven entry name

section Finishing

variable {words : Vocabulary} {before after tree : ScriptTree} {catalog : ActionCatalog}

theorem label_keepArguments (kept : Nat) (node : Node) :
    (keepArguments kept node).label = keepArguments kept node.label := by
  cases node with
  | action id name arguments => simp [keepArguments, Node.label, List.take_replicate]
  | _ => rfl

theorem sharesHeader_omitDefaults (tree : ScriptTree) (catalog : ActionCatalog) :
    tree.SharesHeader (tree.omitDefaults catalog) ∧ (tree.omitDefaults catalog).vars = tree.vars := by
  rw [omitDefaults_eq_nodes]
  exact ⟨⟨rfl, rfl, rfl⟩, rfl⟩

/-- Finishing a tree names its variables and leaves the header as it is. -/
theorem sharesHeader_finish (input : RecoveryInput) (tree : ScriptTree) :
    tree.SharesHeader (input.finish tree) ∧ (input.finish tree).vars = tree.vars.assignNames := by
  unfold RecoveryInput.finish
  dsimp only
  split
  · obtain ⟨header, vars⟩ :=
      sharesHeader_omitDefaults { tree with vars := tree.vars.assignNames } input.catalog
    exact ⟨⟨header.kind, header.signature, header.indent⟩, vars⟩
  · exact ⟨⟨rfl, rfl, rfl⟩, rfl⟩

theorem keepArguments_eq_reference {kept : Nat} {node : Node} {var : VarId}
    (same : keepArguments kept node = .reference var) : node = .reference var := by
  cases node <;> first | exact same | cases same

/-- What a recovery has said is said by the finished tree. -/
theorem IsWorded.isNamed (worded : tree.IsWorded words) (input : RecoveryInput) :
    (input.finish tree).IsNamed words := by
  have finishes := finishes_finish input tree
  obtain ⟨-, vars⟩ := sharesHeader_finish input tree
  refine ⟨fun id => ?_, fun {id var} here => ?_, fun {id entry name} found named => ?_⟩
  · obtain ⟨kept, here⟩ := finishes.node id
    exact ⟨_, kept, worded.label id, by rw [here, label_keepArguments]⟩
  · obtain ⟨kept, former⟩ := finishes.node id
    obtain ⟨entry, found, valueless⟩ :=
      worded.reference (keepArguments_eq_reference (former.symm.trans here))
    obtain ⟨name, named⟩ := VarTable.exists_get?_assignNames found
    exact ⟨{ entry with name }, vars ▸ named, valueless⟩
  · rw [vars, VarTable.get?_assignNames] at found
    obtain ⟨old, known, rfl⟩ := Option.map_eq_some_iff.mp found
    exact VarTable.Naming.name_isGiven _ (worded.vars.name known) named

/-- Edits that relabel nothing leave a finished tree finished. -/
theorem Reshapes.isNamed (reshapes : before.Reshapes after) (named : before.IsNamed words) :
    after.IsNamed words := by
  have values := reshapes.vars.persists.values
  refine ⟨fun id => ?_, fun {id var} here => ?_, fun {id entry name} found given => ?_⟩
  · rcases reshapes.echoes id with silent | ⟨other, echoed⟩
    · exact ⟨.leave, 0, words.plain, silent⟩
    · rw [echoed]
      exact named.label other
  · rcases reshapes.echoes id with silent | ⟨other, echoed⟩
    · rw [here] at silent
      cases silent
    · rw [here] at echoed
      exact values.isPlain (named.reference (Node.label_eq_reference echoed.symm))
  · obtain ⟨declaration, same⟩ := reshapes.vars id
    rw [same] at found
    obtain ⟨old, known, rfl⟩ := Option.map_eq_some_iff.mp found
    exact (named.name known given : VarTable.IsGiven old name)

end Finishing

section Cleaning

/-- What every application of a rule keeps, a run of it keeps. -/
theorem applyAll_induction {α : Type} {rule : ScriptTree → α → Option ScriptTree}
    {Good : ScriptTree → Prop} (applies : ∀ {tree changed : ScriptTree} {place : α}, Good tree →
      rule tree place = some changed → Good changed) (places : List α) {tree : ScriptTree}
    (good : Good tree) : Good (applyAll rule places tree).1 := by
  induction places generalizing tree with
  | nil => exact good
  | cons place places induction =>
      rw [applyAll]
      split
      · rename_i changed applied
        exact induction (applies good applied)
      · exact induction good

theorem Tidying.andThen_induction {Good : ScriptTree → Prop} {first second : Tidying}
    (one : ∀ tree, Good tree → Good (first tree).1) (other : ∀ tree, Good tree → Good (second tree).1)
    (tree : ScriptTree) (good : Good tree) : Good (first.andThen second tree).1 :=
  other _ (one tree good)

/-- What every application of every rule keeps, a cleanup keeps. -/
theorem cleanup_induction {Good : ScriptTree → Prop}
    (absorbs : ∀ {tree changed : ScriptTree} {node : NodeId}, Good tree →
      tree.absorb? node = some changed → Good changed)
    (promotes : ∀ {tree changed : ScriptTree} {node child : NodeId}, Good tree →
      promote? node tree child = some changed → Good changed)
    (settles : ∀ {tree changed : ScriptTree} {child : NodeId}, Good tree →
      tree.settle? child = some changed → Good changed)
    (merges : ∀ {tree changed : ScriptTree} {node : NodeId} {index : Nat}, Good tree →
      merge? node tree index = some changed → Good changed)
    (folds : ∀ {tree changed : ScriptTree} {node : NodeId} {index : Nat}, Good tree →
      foldInitializer? node tree index = some changed → Good changed)
    {tree : ScriptTree} (good : Good tree) : Good tree.cleanup.1 := by
  have body : ∀ (node : NodeId) {tree : ScriptTree}, Good tree → Good (cleanBody node tree).1 := by
    intro node tree good
    have flattens : ∀ tree, Good tree → Good (flatten node tree).1 :=
      fun _ => applyAll_induction absorbs _
    have promotes : ∀ tree, Good tree → Good (promote node tree).1 :=
      fun _ => applyAll_induction promotes _
    have settles : ∀ tree, Good tree → Good (settle node tree).1 :=
      fun _ => applyAll_induction settles _
    have merges : ∀ tree, Good tree → Good (mergeMembers node tree).1 :=
      fun _ => applyAll_induction merges _
    have folds : ∀ tree, Good tree → Good (foldInitializers node tree).1 :=
      fun _ => applyAll_induction folds _
    unfold cleanBody
    split
    · refine Tidying.andThen_induction (Tidying.andThen_induction (Tidying.andThen_induction
        (Tidying.andThen_induction flattens promotes) settles) merges) folds tree good
    · exact good
  have all : ∀ (nodes : List NodeId) {tree : ScriptTree}, Good tree → Good (cleanAll nodes tree).1 := by
    intro nodes
    induction nodes with
    | nil => exact fun good => good
    | cons node nodes induction =>
        exact Tidying.andThen_induction (fun _ good => body node good) (fun _ good => induction good) _
  exact all tree.walk good

variable {tree changed : ScriptTree} {node : NodeId}

/-- Absorbing a nested scope rearranges statements. -/
theorem exists_rearranges_of_absorb? (applied : tree.absorb? node = some changed) :
    ∃ extra, Rearranges extra tree changed := by
  unfold absorb? at applied
  split at applied
  · split at applied
    · cases applied
      exact ⟨_, (Rearranges.detach _ _).trans (.move _ _ _)⟩
    · cases applied
  · cases applied

/-- For an expression among the statements a statement is added, and the others are rearranged. -/
theorem exists_rearranges_of_promote? {child : NodeId}
    (applied : promote? node tree child = some changed) : ∃ detached extra,
      Rearranges [] tree detached ∧ Rearranges extra (detached.add (.statement child)).1 changed := by
  unfold promote? at applied
  split at applied
  · split at applied
    · rename_i detached index taken
      cases applied
      have first : Rearranges [] tree detached := by
        rw [show detached = (tree.detach child).1 by rw [taken]]
        exact .detach tree child
      exact ⟨detached, _, first, .insert _ _ _ _⟩
    · cases applied
  · cases applied

theorem reshapes_of_absorb? (applied : tree.absorb? node = some changed) : tree.Reshapes changed := by
  obtain ⟨_, rearranges⟩ := exists_rearranges_of_absorb? applied
  exact .of_rearranges rearranges

theorem reshapes_of_promote? {child : NodeId} (applied : promote? node tree child = some changed) :
    tree.Reshapes changed := by
  obtain ⟨_, _, first, last⟩ := exists_rearranges_of_promote? applied
  exact ((Reshapes.of_rearranges first).trans (.add _ rfl)).trans (.of_rearranges last)

theorem reshapes_of_settle? {child : NodeId} (applied : tree.settle? child = some changed) :
    tree.Reshapes changed := by
  unfold settle? at applied
  split at applied
  · rename_i here
    cases applied
    exact .modify (by rw [here]; rfl)
  · cases applied

theorem reshapes_of_merge? {index : Nat} (applied : merge? node tree index = some changed) :
    tree.Reshapes changed := by
  obtain ⟨_, _, _, aggregate, _, _, _, _, rfl⟩ := exists_run_of_merge? applied
  exact ((Reshapes.add _ rfl).trans (.replaceAll _ _ _)).trans (.declareWhole _ _ _)

theorem reshapes_of_foldInitializer? {index : Nat}
    (applied : foldInitializer? node tree index = some changed) : tree.Reshapes changed := by
  obtain ⟨_, declaration, next, _, _, _, _, _, _, _, split, folds, rfl⟩ :=
    exists_folds_of_foldInitializer? applied
  refine (Reshapes.setParent (.modify ?_) _ _).trans (.of_rearranges (.detach _ _))
  rw [folds.declares]
  rfl

/-- A cleanup relabels nothing. -/
theorem reshapes_cleanup (tree : ScriptTree) : tree.Reshapes tree.cleanup.1 :=
  cleanup_induction (fun first applied => first.trans (reshapes_of_absorb? applied))
    (fun first applied => first.trans (reshapes_of_promote? applied))
    (fun first applied => first.trans (reshapes_of_settle? applied))
    (fun first applied => first.trans (reshapes_of_merge? applied))
    (fun first applied => first.trans (reshapes_of_foldInitializer? applied)) (.refl tree)

end Cleaning

end ScriptTree

namespace RecoveryInput

variable {input : RecoveryInput} {sub : Nat} {words : Vocabulary} {tree : ScriptTree}

/-- Before the first instruction of a subroutine its header is known. -/
theorem header_start (input : RecoveryInput) (sub : Nat) :
    (input.start sub).tree.kind = input.kind sub ∧
      (input.start sub).tree.signature.name = input.name sub ∧
      (input.start sub).tree.indent = input.settings.indent := by
  unfold start
  dsimp only
  split
  · exact ⟨rfl, rfl, rfl⟩
  · split <;> exact ⟨rfl, rfl, rfl⟩

/-- A recovered tree is named, keeps to the vocabulary of the subroutine and has its header. -/
theorem recover_isNamed (speaks : input.Speaks (input.program.body sub) words)
    (recovered : input.recover sub = .ok tree) :
    tree.IsNamed words ∧ (input.start sub).tree.SharesHeader tree := by
  obtain ⟨last, ran, rfl⟩ := exists_of_recover recovered
  obtain ⟨worded, continues⟩ := run_isWorded speaks ran
  exact ⟨worded.tree.isNamed input,
    continues.header.trans (ScriptTree.sharesHeader_finish input last.tree).1⟩

end RecoveryInput
end NwScript
