import NwScript.Proofs.CleanedStatements
import NwScript.Proofs.CleanupTwice
import NwScript.Proofs.TidiedLabels

/-!
# Declarations of members

An aggregate may be formed of variables that have been declared one by one.  A cleanup declares it as a
whole where its members are declared side by side, without values and in their order; every other
declaration of a member stays.  So what a cleanup leaves declared are whole variables exactly if the
declarations of members stand in such runs only.
-/

namespace NwScript

/-- The variable that a node declares. -/
def Node.declared? : Node → Option VarId
  | .declaration var _ _ => some var
  | _ => none

/-- No aggregate is a member itself. -/
def VarTable.IsOneLevel (table : VarTable) : Prop :=
  ∀ whole, table.members whole ≠ [] → table.parent? whole = none

theorem VarTable.Alike.isOneLevel {before after : VarTable} (alike : before.Alike after)
    (one_level : before.IsOneLevel) : after.IsOneLevel := by
  intro whole some_member
  rw [alike.members] at some_member
  rw [alike.parent?]
  exact one_level whole some_member

theorem VarTable.IsOneLevel.isShallow {table : VarTable} (one_level : table.IsOneLevel) :
    table.IsShallow := by
  intro whole outer some_member linked
  rw [one_level whole some_member] at linked
  cases linked

namespace ScriptTree

/-- A node declares a member of an aggregate. -/
def DeclaresMember (tree : ScriptTree) (id : NodeId) : Prop :=
  ((tree.node id).declared?.bind tree.vars.parent?).isSome

instance (tree : ScriptTree) (id : NodeId) : Decidable (tree.DeclaresMember id) :=
  inferInstanceAs (Decidable (_ = true))

/-- Among some statements members are declared in runs only, each of which declares all members of an
aggregate. -/
inductive Gathered (tree : ScriptTree) : List NodeId → Prop
  /-- There are no statements. -/
  | nil : Gathered tree []
  /-- A statement declares no member. -/
  | other {statement : NodeId} {rest : List NodeId} (whole : ¬tree.DeclaresMember statement)
      (behind : Gathered tree rest) : Gathered tree (statement :: rest)
  /-- Statements declare the members of an aggregate. -/
  | run {aggregate : VarId} {run rest : List NodeId} (some_member : tree.vars.members aggregate ≠ [])
      (is_run : tree.IsRun aggregate run) (behind : Gathered tree rest) : Gathered tree (run ++ rest)

/-- In every body that hangs, members are declared in runs only. -/
def IsGathered (tree : ScriptTree) : Prop :=
  ∀ body, tree.Hangs body → tree.Gathered (tree.children body)

variable {tree before after : ScriptTree} {host new id : NodeId} {aggregate : VarId}
  {run left right : List NodeId}

section Statements

theorem declaresMember_iff : tree.DeclaresMember id ↔ ∃ var init pending,
    tree.node id = .declaration var init pending ∧ (tree.vars.parent? var).isSome := by
  rw [DeclaresMember]
  cases tree.node id <;> simp [Node.declared?]

theorem IsRun.declaresMember (is_run : tree.IsRun aggregate run) {statement : NodeId}
    (listed : statement ∈ run) : tree.DeclaresMember statement := by
  obtain ⟨member, pending, here, linked, _⟩ := is_run.declares listed
  exact declaresMember_iff.mpr ⟨member, none, pending, here, by simp [linked]⟩

/-- The statements of two runs that begin alike are the same. -/
theorem IsRun.eq_of_append_eq {other : VarId} {others : List NodeId}
    (is_run : tree.IsRun aggregate run) (is_other : tree.IsRun other others)
    (some_member : tree.vars.members aggregate ≠ []) (other_member : tree.vars.members other ≠ [])
    (same : run ++ left = others ++ right) : run = others ∧ left = right := by
  obtain ⟨first, rest, rfl⟩ := List.exists_cons_of_ne_nil (is_run.ne_nil some_member)
  obtain ⟨start, behind, rfl⟩ := List.exists_cons_of_ne_nil (is_other.ne_nil other_member)
  obtain rfl : first = start := (List.cons.inj same).1
  obtain ⟨member, pending, here, linked, _⟩ := is_run.declares List.mem_cons_self
  obtain ⟨_, _, there, others_linked, _⟩ := is_other.declares List.mem_cons_self
  obtain ⟨rfl, -, -⟩ := Node.declaration.inj (here.symm.trans there)
  obtain rfl := Option.some.inj (linked.symm.trans others_linked)
  exact List.append_inj same (is_run.length_eq.trans is_other.length_eq.symm)

namespace Gathered

theorem of_forall {statements : List NodeId}
    (whole : ∀ statement ∈ statements, ¬tree.DeclaresMember statement) : tree.Gathered statements := by
  induction statements with
  | nil => exact .nil
  | cons statement rest induction =>
      obtain ⟨here, others⟩ := List.forall_mem_cons.mp whole
      exact .other here (induction others)

theorem append (first : tree.Gathered left) (second : tree.Gathered right) :
    tree.Gathered (left ++ right) := by
  induction first with
  | nil => exact second
  | other whole _ induction => exact .other whole induction
  | run some_member is_run _ induction =>
      rw [List.append_assoc]
      exact .run some_member is_run induction

/-- A run in front may be left out, since no other one begins like it. -/
theorem of_run_append (some_member : tree.vars.members aggregate ≠ [])
    (is_run : tree.IsRun aggregate run) (gathered : tree.Gathered (run ++ right)) :
    tree.Gathered right := by
  obtain ⟨first, rest, rfl⟩ := List.exists_cons_of_ne_nil (is_run.ne_nil some_member)
  generalize split : first :: rest ++ right = statements at gathered
  cases gathered with
  | nil => cases split
  | other whole behind =>
      obtain ⟨rfl, _⟩ := List.cons.inj split
      exact absurd (is_run.declaresMember List.mem_cons_self) whole
  | run other_member is_other behind =>
      obtain ⟨-, rfl⟩ := is_run.eq_of_append_eq is_other some_member other_member split
      exact behind

/-- Where no run begins, no member is declared. -/
theorem of_clear (clear : ∀ {front run behind aggregate}, left ++ right = front ++ run ++ behind →
      tree.vars.members aggregate ≠ [] → tree.IsRun aggregate run → left.length ≤ front.length)
    (gathered : tree.Gathered (left ++ right)) :
    (∀ statement ∈ left, ¬tree.DeclaresMember statement) ∧ tree.Gathered right := by
  induction left with
  | nil => exact ⟨fun _ listed => absurd listed List.not_mem_nil, gathered⟩
  | cons statement left induction =>
      generalize split : statement :: left ++ right = statements at gathered
      cases gathered with
      | nil => cases split
      | other whole behind =>
          obtain ⟨rfl, rfl⟩ := List.cons.inj split
          obtain ⟨others, rest⟩ := induction (fun later some_member is_run => by
            have early := @clear (statement :: _) _ _ _ (congrArg (statement :: ·) later)
              some_member is_run
            exact Nat.le_of_succ_le_succ early) behind
          exact ⟨List.forall_mem_cons.mpr ⟨whole, others⟩, rest⟩
      | run some_member is_run behind =>
          exact absurd (@clear [] _ _ _ split some_member is_run) (by simp)

/-- A statement that declares no member belongs to no run, so it parts the others. -/
theorem parts {statement : NodeId} (whole : ¬tree.DeclaresMember statement)
    (gathered : tree.Gathered (left ++ statement :: right)) :
    tree.Gathered left ∧ tree.Gathered right := by
  generalize split : left ++ statement :: right = statements at gathered
  induction gathered generalizing left with
  | nil => simp at split
  | other other behind induction =>
      cases left with
      | nil =>
          obtain ⟨-, rfl⟩ := List.cons.inj split
          exact ⟨.nil, behind⟩
      | cons first left =>
          obtain ⟨rfl, rest⟩ := List.cons.inj split
          exact (induction rest).imp_left (.other other)
  | @run aggregate run rest some_member is_run behind induction =>
      -- The statement is none of the run, so the run stands in front of it.
      have in_front : ∃ skipped, left = run ++ skipped ∧
          skipped ++ statement :: right = rest := by
        rcases List.append_eq_append_iff.mp split with ⟨covered, rfl, rest⟩ | ⟨skipped, rfl, rest⟩
        · cases covered with
          | nil => exact ⟨[], by simp, rest⟩
          | cons first covered =>
              obtain ⟨rfl, _⟩ := List.cons.inj rest
              exact absurd (is_run.declaresMember (by simp)) whole
        · exact ⟨skipped, rfl, rest.symm⟩
      obtain ⟨skipped, rfl, rest⟩ := in_front
      exact (induction rest).imp_left (.run some_member is_run)

end Gathered
end Statements

section Comparing

/-- In two trees a statement declares the same member or none. -/
structure DeclaresAlike (before after : ScriptTree) (id : NodeId) : Prop where
  /-- It declares the same member without a value. -/
  bare : after.memberDeclaration? id = before.memberDeclaration? id
  /-- It declares a member in both. -/
  member : after.DeclaresMember id ↔ before.DeclaresMember id

theorem memberDeclaration?_eq_some_iff {member : VarId} :
    tree.memberDeclaration? id = some (member, aggregate) ↔
      (∃ pending, tree.node id = .declaration member none pending) ∧
        tree.vars.parent? member = some aggregate := by
  unfold memberDeclaration?
  split
  · rename_i var pending here
    rw [here]
    constructor
    · intro found
      obtain ⟨parent, linked, same⟩ := Option.map_eq_some_iff.mp found
      obtain ⟨rfl, rfl⟩ := Prod.mk.inj same
      exact ⟨⟨pending, rfl⟩, linked⟩
    · rintro ⟨⟨_, same⟩, linked⟩
      obtain ⟨rfl, -, -⟩ := Node.declaration.inj same
      rw [linked]
      rfl
  · rename_i other
    exact ⟨fun found => (Option.some_ne_none _ found.symm).elim,
      fun ⟨⟨pending, here⟩, _⟩ => (other _ pending here).elim⟩

namespace DeclaresAlike

theorem of_declarations (vars : before.vars.Alike after.vars)
    (same : ∀ var init, (∃ pending, after.node id = .declaration var init pending) ↔
      ∃ pending, before.node id = .declaration var init pending) :
    DeclaresAlike before after id where
  bare := by
    refine Option.ext fun ⟨member, aggregate⟩ => ?_
    rw [memberDeclaration?_eq_some_iff, memberDeclaration?_eq_some_iff, same, vars.parent?]
  member := by
    rw [declaresMember_iff, declaresMember_iff, vars.parent?]
    have each := fun var init => same var init
    simp only [exists_and_right, each]

/-- Child statements do not matter. -/
theorem of_holding (vars : before.vars.Alike after.vars)
    (same : ∃ statements, after.node id = (before.node id).holding statements) :
    DeclaresAlike before after id := by
  refine of_declarations vars fun var init => ?_
  obtain ⟨statements, same⟩ := same
  rw [same]
  cases before.node id <;> simp [Node.mapBody]

theorem symm (alike : DeclaresAlike before after id) : DeclaresAlike after before id :=
  ⟨alike.bare.symm, alike.member.symm⟩

end DeclaresAlike

theorem Gathered.of_alike {statements : List NodeId}
    (members : after.vars.members = before.vars.members)
    (alike : ∀ statement ∈ statements, DeclaresAlike before after statement)
    (gathered : before.Gathered statements) : after.Gathered statements := by
  induction gathered with
  | nil => exact .nil
  | other whole _ induction =>
      obtain ⟨here, others⟩ := List.forall_mem_cons.mp alike
      exact .other (mt here.member.mp whole) (induction others)
  | run some_member is_run _ induction =>
      obtain ⟨here, others⟩ := List.forall_mem_append.mp alike
      refine .run (by rwa [members]) ?_ (induction others)
      rw [IsRun, List.map_congr_left fun statement listed => (here statement listed).bare, is_run,
        members]

theorem gathered_congr {statements : List NodeId}
    (members : after.vars.members = before.vars.members)
    (alike : ∀ statement ∈ statements, DeclaresAlike before after statement) :
    after.Gathered statements ↔ before.Gathered statements :=
  ⟨.of_alike members.symm fun statement listed => (alike statement listed).symm,
    .of_alike members alike⟩

end Comparing
section Rules

variable {inner : NodeId} {statement : Node} {old : List NodeId}

/-- In a settled tree members are declared where they were. -/
theorem declaresAlike_of_settle? {child : NodeId} (applied : before.settle? child = some after)
    (id : NodeId) : DeclaresAlike before after id := by
  unfold settle? at applied
  split at applied
  swap
  · cases applied
  rename_i var init here
  obtain rfl := Option.some.inj applied
  refine .of_declarations (.refl _) fun other value => ?_
  rcases node_modify_cases before child id fun _ => .declaration var init false with
    same | ⟨rfl, changed⟩
  · rw [same]
  · rw [changed, here]
    simp

theorem Resembles.isGathered_iff (resembles : before.Resembles after)
    (alike : ∀ id, DeclaresAlike before after id) : after.IsGathered ↔ before.IsGathered := by
  refine forall_congr' fun body => ?_
  rw [Hangs, Hangs, resembles.holds, resembles.children,
    gathered_congr resembles.vars.members fun statement _ => alike statement]

namespace Absorbs

variable (absorbs : Absorbs host inner before after) (proper : before.IsProper)

include absorbs proper

/-- A block that was absorbed keeps nothing. -/
theorem children_inner_eq_nil : after.children inner = [] := by
  rw [absorbs.children_inner (proper.placed.some host), remaining, List.filter_eq_nil_iff]
  intro child held
  simp [held, proper.placed.home held (proper.children held)]

theorem isGathered_iff : after.IsGathered ↔ before.IsGathered := by
  have vars : before.vars.Alike after.vars := absorbs.vars ▸ .refl _
  have same : ∀ statements, after.Gathered statements ↔ before.Gathered statements := fun statements =>
    gathered_congr vars.members fun statement _ => .of_holding vars (absorbs.exists_node_eq statement)
  constructor
  · intro gathered body hangs
    rcases absorbs.hangs_cases proper hangs with ⟨rfl, above⟩ | ⟨other, still⟩
    · rw [← same, ← absorbs.children_host]
      exact gathered host above
    by_cases here : body = host
    · rw [here, absorbs.held]
      refine .other ?_ .nil
      rw [declaresMember_iff]
      rintro ⟨_, _, _, declares, _⟩
      simpa [declares, Node.isBlock] using absorbs.block
    · rw [← same, ← absorbs.children_of_ne here other]
      exact gathered body still
  · intro gathered body hangs
    have former := absorbs.hangs_of_hangs proper hangs
    rw [same]
    by_cases here : body = host
    · rw [here, absorbs.children_host]
      exact gathered inner ((here ▸ former).tail absorbs.listed)
    by_cases block : body = inner
    · rw [block, absorbs.children_inner_eq_nil proper]
      exact .nil
    · rw [absorbs.children_of_ne here block]
      exact gathered body former

end Absorbs

namespace Rewrites

variable (rewrites : Rewrites host new statement left old right before after)

include rewrites

/-- Other statements declare what they declared. -/
theorem declaresAlike (other : id ≠ new) : DeclaresAlike before after id :=
  .of_holding rewrites.vars (rewrites.exists_node_eq other)

theorem gathered_iff_of_not_mem {statements : List NodeId} (apart : new ∉ statements) :
    after.Gathered statements ↔ before.Gathered statements :=
  gathered_congr rewrites.vars.members fun _ listed =>
    rewrites.declaresAlike (ne_of_mem_of_not_mem listed apart)

/-- Where the old statements own none, only the body itself matters. -/
theorem isGathered_iff (proper : before.IsProper) (bare : ∀ id ∈ old, before.children id = [])
    (here : after.Gathered (left ++ new :: right) ↔ before.Gathered (left ++ old ++ right)) :
    after.IsGathered ↔ before.IsGathered := by
  refine forall_congr' fun body => ?_
  have bodies : after.Gathered (after.children body) ↔ before.Gathered (before.children body) := by
    by_cases same : body = host
    · rw [same, rewrites.children_host, rewrites.held, here]
    · rw [rewrites.children_of_ne same, rewrites.gathered_iff_of_not_mem fun held =>
        same (rewrites.holder_eq_host (proper.placed.some host) held)]
  rw [bodies]
  by_cases empty : before.children body = []
  · simp [empty, Gathered.nil]
  · have other : body ≠ new := by
      rintro rfl
      rw [children_eq, Node.statements_eq_nil rewrites.bare_before] at empty
      exact empty rfl
    rw [rewrites.hangs_iff bare other fun listed => empty (bare body listed)]

end Rewrites
end Rules

section Phases

/-- A change leaves a proper tree in which members are declared in runs only if they were before, and
conversely. -/
structure Regathers (before after : ScriptTree) : Prop where
  /-- The tree is proper. -/
  proper : after.IsProper
  /-- Aggregates and members stay. -/
  vars : before.vars.Alike after.vars
  /-- Members are declared in runs in both trees or in none. -/
  gathered : after.IsGathered ↔ before.IsGathered

theorem Regathers.refl (proper : tree.IsProper) : Regathers tree tree :=
  ⟨proper, .refl _, Iff.rfl⟩

theorem Regathers.trans {middle : ScriptTree} (first : Regathers before middle)
    (second : Regathers middle after) : Regathers before after :=
  ⟨second.proper, first.vars.trans second.vars, second.gathered.trans first.gathered⟩

theorem regathers_flatten (proper : tree.IsProper) (host : NodeId) :
    Regathers tree (flatten host tree).1 := by
  refine applyAll_induction (fun {before after _} kept applied => ?_) _ (.refl proper)
  obtain ⟨inner, absorbs⟩ := exists_absorbs (kept.proper.placed.some host) applied
  exact kept.trans ⟨absorbs.isProper kept.proper, absorbs.vars ▸ .refl _,
    absorbs.isGathered_iff kept.proper⟩

theorem regathers_settle (proper : tree.IsProper) (host : NodeId) :
    Regathers tree (settle host tree).1 := by
  refine applyAll_induction (fun {before after _} kept applied => ?_) _ (.refl proper)
  have resembles := Resembles.of_settle? applied
  exact kept.trans ⟨resembles.isProper kept.proper, resembles.vars,
    resembles.isGathered_iff (declaresAlike_of_settle? applied)⟩

/-- Where no run begins before it, a run can be declared as a whole without parting another one. -/
theorem Rewrites.gathered_iff_of_isRun
    (rewrites : Rewrites host before.size statement left run right before after)
    (placed : before.IsPlaced (some host)) (some_member : before.vars.members aggregate ≠ [])
    (is_run : before.IsRun aggregate run) (whole : ¬after.DeclaresMember before.size)
    (clear : ∀ index < left.length, ¬before.MergesAt host index) :
    after.Gathered (left ++ before.size :: right) ↔ before.Gathered (left ++ run ++ right) := by
  have fresh : ∀ {statements}, statements ⊆ left ++ right → before.size ∉ statements :=
    fun beside listed => Nat.lt_irrefl _
      (placed.child_inside (rewrites.held_of_beside (beside listed)))
  have in_front := rewrites.gathered_iff_of_not_mem (fresh (List.subset_append_left left right))
  have behind := rewrites.gathered_iff_of_not_mem (fresh (List.subset_append_right left right))
  rw [List.append_assoc]
  constructor
  · intro gathered
    obtain ⟨first, second⟩ := gathered.parts whole
    exact (in_front.mp first).append (.run some_member is_run (behind.mp second))
  · intro gathered
    obtain ⟨others, rest⟩ := gathered.of_clear fun {front _ _ _} later some_later is_later => by
      by_contra early
      have split := rewrites.held.trans ((List.append_assoc _ _ _).trans later)
      exact clear front.length (Nat.lt_of_not_le early) ⟨front, _, _, _, rfl, split, some_later, is_later⟩
    exact (in_front.mpr (.of_forall others)).append
      (.other whole (behind.mpr (.of_run_append some_member is_run rest)))

theorem regathers_mergeMembers (proper : tree.IsProper) (one_level : tree.vars.IsOneLevel)
    (host : NodeId) : Regathers tree (mergeMembers host tree).1 := by
  have result := applyAll_range (merge? host) (fun tree => tree.MergesAt host) (Regathers tree) 0
    (tree.children host).length (proper.placed.some host) (.refl proper)
    (fun index early => absurd early (Nat.not_lt_zero _)) merge?_eq_none_iff.mp
    fun {before after index} placed kept clear applied => ?_
  · rw [← List.range_eq_range'] at result
    exact result.2.1
  obtain ⟨left, run, right, aggregate, rfl, split, some_member, is_run, result⟩ :=
    exists_run_of_merge? applied
  have rewrites := rewrites_of_isRun placed split some_member is_run
  rw [← result] at rewrites
  have whole : ¬after.DeclaresMember before.size := by
    rw [DeclaresMember, rewrites.node_new, rewrites.vars.parent?]
    simp [Node.declared?, kept.vars.isOneLevel one_level _ some_member]
  refine ⟨.rewrite rewrites (.merge is_run), kept.trans ⟨rewrites.isProper kept.proper, rewrites.vars,
    rewrites.isGathered_iff kept.proper (fun _ => is_run.children_eq_nil)
      (rewrites.gathered_iff_of_isRun placed some_member is_run whole clear)⟩,
    fun earlier early merges => ?_⟩
  rcases rewrites.mergesAt placed (fun _ others_run listed =>
    whole (others_run.declaresMember listed)) merges with former | ⟨behind, _⟩
  · exact ⟨earlier, former⟩
  · exact absurd behind (Nat.not_lt.mpr early)

/-- In a body without runs members are declared in runs only if none is declared. -/
theorem gathered_children_iff (clear : ∀ index, ¬tree.MergesAt host index) :
    tree.Gathered (tree.children host) ↔
      ∀ child ∈ tree.children host, ¬tree.DeclaresMember child := by
  refine ⟨fun gathered => ?_, .of_forall⟩
  rw [← List.append_nil (tree.children host)] at gathered
  refine (gathered.of_clear fun {front run behind aggregate} split some_member is_run => ?_).1
  rw [List.append_nil] at split
  exact absurd ⟨front, run, behind, aggregate, rfl, split, some_member, is_run⟩ (clear front.length)

theorem regathers_foldInitializers (proper : tree.IsProper)
    (clear : ∀ index, ¬tree.MergesAt host index) :
    Regathers tree (foldInitializers host tree).1 := by
  refine (@applyAll_induction Nat (foldInitializer? host)
    (fun changed => Regathers tree changed ∧ ∀ index, ¬changed.MergesAt host index)
    (fun {before after index} kept applied => ?_) _ _ ⟨.refl proper, clear⟩).1
  obtain ⟨kept, clear⟩ := kept
  have placed := kept.proper.placed.some host
  obtain ⟨left, declaration, next, right, var, pending, _, _, value, rfl, split, folds, result⟩ :=
    exists_folds_of_foldInitializer? applied
  have rewrites := rewrites_of_folds placed split folds
  rw [← result] at rewrites
  have still : ∀ index, ¬after.MergesAt host index := by
    intro index merges
    have apart : ∀ {outer others}, after.vars.members outer ≠ [] → after.IsRun outer others →
        declaration ∉ others := by
      intro outer others _ others_run listed
      obtain ⟨_, _, declares, _⟩ := others_run.declares listed
      simpa using rewrites.node_new.symm.trans declares
    rcases rewrites.mergesAt placed apart merges with ⟨_, former⟩ | ⟨_, _, former⟩
    · exact clear _ former
    · exact clear _ former
  have same : after.DeclaresMember declaration ↔ before.DeclaresMember declaration := by
    rw [DeclaresMember, DeclaresMember, rewrites.node_new, folds.declares, rewrites.vars.parent?]
    rfl
  have idle : ¬before.DeclaresMember next := by
    rw [DeclaresMember, folds.states]
    simp [Node.declared?]
  refine ⟨kept.trans ⟨rewrites.isProper kept.proper, rewrites.vars,
    rewrites.isGathered_iff kept.proper (fun _ => folds.children_eq_nil) ?_⟩, still⟩
  have others : ∀ {statements}, statements ⊆ left ++ right →
      ((∀ child ∈ statements, ¬after.DeclaresMember child) ↔
        ∀ child ∈ statements, ¬before.DeclaresMember child) := fun beside =>
    forall₂_congr fun child listed => not_congr (rewrites.declaresAlike fun here =>
      rewrites.not_mem_old placed (beside listed) (by simp [here])).member
  rw [← rewrites.children_host, gathered_children_iff still, ← rewrites.held,
    gathered_children_iff clear, rewrites.children_host, rewrites.held]
  simp only [List.forall_mem_append, List.forall_mem_cons, List.not_mem_nil, IsEmpty.forall_iff,
    implies_true, others (List.subset_append_left left right),
    others (List.subset_append_right left right), same, idle, not_false_iff, and_true,
    and_assoc]

theorem regathers_cleanBody (proper : tree.IsProper) (one_level : tree.vars.IsOneLevel)
    (host : NodeId) : Regathers tree (cleanBody host tree).1 := by
  by_cases owns : (tree.node host).body?.isSome
  swap
  · rw [cleanBody, if_neg owns]
    exact .refl proper
  rw [cleanBody_fst owns]
  have flattened := regathers_flatten proper host
  have flat := (flatten_spec (proper.placed.some host)).2
  have promoted := (promote_spec (flattened.proper.placed.some host) flat).2
  rw [flattened.proper.promote_eq_self] at promoted ⊢
  have settled := (settle_spec (flattened.proper.placed.some host) promoted).2
  have settles := flattened.trans (regathers_settle flattened.proper host)
  have merged := (mergeMembers_spec (settles.proper.placed.some host) settled).2
  have merges := settles.trans
    (regathers_mergeMembers settles.proper (settles.vars.isOneLevel one_level) host)
  have shallow := (merges.vars.isOneLevel one_level).isShallow
  exact merges.trans (regathers_foldInitializers merges.proper (merged.2 shallow))

theorem regathers_cleanAll (proper : tree.IsProper) (one_level : tree.vars.IsOneLevel)
    (nodes : List NodeId) : Regathers tree (cleanAll nodes tree).1 := by
  induction nodes generalizing tree with
  | nil => exact .refl proper
  | cons node nodes induction =>
      have here := regathers_cleanBody proper one_level node
      exact here.trans (induction here.proper (here.vars.isOneLevel one_level))

end Phases

section Cleaning

/-- Everything that is declared is a whole variable: neither a parameter nor a declaration that a walk
meets is of a member. -/
def DeclaresWholes (tree : ScriptTree) : Prop :=
  (∀ param ∈ tree.signature.params, tree.vars.parent? param = none) ∧
    ∀ id ∈ tree.walk, ¬tree.DeclaresMember id

/-- A change makes no declaration of a member. -/
structure AddsNoMember (before after : ScriptTree) : Prop where
  /-- Aggregates and members stay. -/
  vars : before.vars.Alike after.vars
  /-- What declares a member did so before. -/
  declares : ∀ {id}, after.DeclaresMember id → before.DeclaresMember id

namespace AddsNoMember

theorem refl (tree : ScriptTree) : AddsNoMember tree tree :=
  ⟨.refl _, fun declares => declares⟩

theorem trans {middle : ScriptTree} (first : AddsNoMember before middle)
    (second : AddsNoMember middle after) : AddsNoMember before after :=
  ⟨first.vars.trans second.vars, fun declares => first.declares (second.declares declares)⟩

theorem of_rearranges {extra : List NodeId} (rearranges : Rearranges extra before after) :
    AddsNoMember before after :=
  ⟨rearranges.vars ▸ .refl _, fun {id} =>
    (DeclaresAlike.of_holding (rearranges.vars ▸ .refl _) (rearranges.node id)).member.mp⟩

/-- A node is added that declares no member. -/
theorem add (tree : ScriptTree) {node : Node} (whole : node.declared?.bind tree.vars.parent? = none) :
    AddsNoMember tree (tree.add node).1 := by
  refine ⟨by rw [vars_add]; exact .refl _, fun {id} declares => ?_⟩
  rw [DeclaresMember, node_add, Function.update_apply, vars_add] at declares
  split at declares
  · rw [whole] at declares
    cases declares
  · exact declares

/-- A node that changes goes on declaring what it declared. -/
theorem modify (tree : ScriptTree) {changed : NodeId} {change : Node → Node}
    (same : (change (tree.node changed)).declared? = (tree.node changed).declared?) :
    AddsNoMember tree (tree.modify changed change) := by
  refine ⟨.refl _, fun {id} declares => ?_⟩
  rcases node_modify_cases tree changed id change with kept | ⟨rfl, node⟩
  · rwa [DeclaresMember, kept] at declares
  · rwa [DeclaresMember, node, same] at declares

theorem of_absorb? (applied : before.absorb? host = some after) : AddsNoMember before after := by
  obtain ⟨_, rearranges⟩ := exists_rearranges_of_absorb? applied
  exact of_rearranges rearranges

theorem of_promote? {child : NodeId} (applied : promote? host before child = some after) :
    AddsNoMember before after := by
  obtain ⟨_, _, first, last⟩ := exists_rearranges_of_promote? applied
  exact ((of_rearranges first).trans (add _ rfl)).trans (of_rearranges last)

theorem of_settle? {child : NodeId} (applied : before.settle? child = some after) :
    AddsNoMember before after :=
  ⟨(Resembles.of_settle? applied).vars, fun {id} => (declaresAlike_of_settle? applied id).member.mp⟩

/-- The aggregate that is declared is no member. -/
theorem of_merge? {index : Nat} (one_level : before.vars.IsOneLevel)
    (applied : merge? host before index = some after) : AddsNoMember before after := by
  obtain ⟨_, run, _, aggregate, _, _, some_member, _, rfl⟩ := exists_run_of_merge? applied
  have added : AddsNoMember before (before.add (.declaration aggregate none false)).1 :=
    add before (one_level aggregate some_member)
  refine (added.trans (of_rearranges (.replaceAll _ before.size run))).trans ?_
  obtain ⟨vars, same, alike⟩ := exists_declareWhole_eq
    ((before.add (.declaration aggregate none false)).1.replaceAll before.size run) aggregate before.size
  rw [same]
  exact ⟨alike, fun declares => by rwa [DeclaresMember, alike.parent?] at declares⟩

theorem of_foldInitializer? {index : Nat} (applied : foldInitializer? host before index = some after) :
    AddsNoMember before after := by
  obtain ⟨_, declaration, next, _, var, pending, _, _, value, _, _, folds, rfl⟩ :=
    exists_folds_of_foldInitializer? applied
  have folded : AddsNoMember before
      (before.modify declaration fun _ => .declaration var (some value) pending) :=
    modify before (by rw [folds.declares]; rfl)
  have linked : AddsNoMember before ((before.modify declaration fun _ =>
      .declaration var (some value) pending).setParent value (some declaration)) :=
    ⟨folded.vars, folded.declares⟩
  exact linked.trans (of_rearranges (.detach _ _))

end AddsNoMember

/-- No rule makes a declaration of a member, whatever the tree. -/
theorem addsNoMember_cleanup (one_level : tree.vars.IsOneLevel) :
    AddsNoMember tree tree.cleanup.1 :=
  cleanup_induction (fun kept applied => kept.trans (.of_absorb? applied))
    (fun kept applied => kept.trans (.of_promote? applied))
    (fun kept applied => kept.trans (.of_settle? applied))
    (fun kept applied => kept.trans (.of_merge? (kept.vars.isOneLevel one_level) applied))
    (fun kept applied => kept.trans (.of_foldInitializer? applied)) (.refl tree)

/-- What a cleaned tree declares are whole variables exactly if members were declared in runs only. -/
theorem IsProper.cleanup_isGathered_iff (proper : tree.IsProper) (one_level : tree.vars.IsOneLevel) :
    (∀ id ∈ tree.cleanup.1.walk, ¬tree.cleanup.1.DeclaresMember id) ↔ tree.IsGathered := by
  have cleaned : Regathers tree tree.cleanup.1 := regathers_cleanAll proper one_level tree.walk
  rw [← cleaned.gathered]
  have met : ∀ {id}, tree.cleanup.1.Hangs id → id ∈ tree.cleanup.1.walk := fun hangs =>
    mem_walk_iff.mpr (Relation.ReflTransGen.mono (fun _ _ held => Or.inr held) _ _ hangs)
  constructor
  · intro whole body hangs
    exact .of_forall fun child held => whole child (met (hangs.tail held))
  · intro gathered id listed declares
    obtain ⟨var, init, pending, here, _⟩ := declaresMember_iff.mp declares
    have hangs : tree.cleanup.1.Hangs id :=
      cleaned.proper.holds_of_reaches (mem_walk_iff.mp listed) (by rw [here]; rfl)
    rcases hangs.cases_tail with rfl | ⟨body, above, held⟩
    · have rooted := cleaned.proper.placed.rooted
      rw [here] at rooted
      cases rooted
    · have tidy := proper.placed.cleanup_isTidy one_level.isShallow (met above)
        (Node.owns_of_mem_statements held)
      exact (gathered_children_iff tidy.merged).mp (gathered body above) id held declares

end Cleaning

end ScriptTree
end NwScript
