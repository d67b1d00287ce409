import Mathlib.Data.Finset.Card
import NwScript.Proofs.TidyBodies

/-!
# A second cleanup

Each rule in turn leaves nothing of its kind to do in a body, and the rules behind it bring nothing of
that kind back.  As later bodies leave earlier ones tidy and no rule leads to a body that was not met
before, a second cleanup finds nothing to change.
-/

namespace NwScript
namespace ScriptTree

variable {tree before after : ScriptTree} {host new : NodeId} {statement : Node}
  {left old right : List NodeId}

section Changes

namespace Rewrites

variable (rewrites : Rewrites host new statement left old right before after)

include rewrites

theorem isFlat : after.IsFlat host := by
  intro inner single
  have listed : new ∈ after.children host := by simp [rewrites.children_host]
  obtain rfl : new = inner := by simpa [single] using listed
  rw [rewrites.node_new]
  by_contra block
  have owns := Node.owns_of_isBlock (by simpa using block)
  simp [rewrites.bare] at owns

theorem length_le : (after.children host).length ≤ (before.children host).length := by
  have some_old := List.length_pos_iff.mpr rewrites.taken
  rw [rewrites.children_host, rewrites.held]
  simp
  omega

/-- Loose expressions stood loose beside the old statements. -/
theorem isLoose (placed : before.IsPlaced (some host)) {child : NodeId}
    (held : child ∈ after.children host) (loose : after.IsLoose host child) :
    child ∈ left ++ right ∧ before.IsLoose host child := by
  obtain ⟨expression, own⟩ := loose
  have other : child ≠ new := by
    rintro rfl
    simp [rewrites.node_new, rewrites.plain] at expression
  have beside : child ∈ left ++ right := by
    rw [rewrites.children_host] at held
    simpa [other] using held
  rw [rewrites.isExpression_of_ne other] at expression
  rw [rewrites.parent?, if_neg other, if_neg (rewrites.not_mem_old placed beside)] at own
  split at own
  · exact absurd (Option.some.inj own).symm rewrites.host_ne_new
  · exact ⟨beside, expression, own⟩

theorem isPending (placed : before.IsPlaced (some host)) {child : NodeId}
    (held : child ∈ after.children host) (settled : ∀ var init, statement ≠ .declaration var init true)
    (pending : after.IsPending child) : child ∈ left ++ right ∧ before.IsPending child := by
  obtain ⟨var, init, here⟩ := pending
  have other : child ≠ new := by
    rintro rfl
    exact settled var init (rewrites.node_new.symm.trans here)
  rw [rewrites.children_host] at held
  exact ⟨by simpa [other] using held, var, init, (rewrites.spares placed).node_eq other here rfl⟩

/-- Neighbours apart from the statement were neighbours before, in front of it or behind it. -/
theorem split_cases {front run rest : List NodeId} (some_statement : run ≠ []) (apart : new ∉ run)
    (split : after.children host = front ++ run ++ rest) :
    front.length < left.length ∧ (∃ behind, before.children host = front ++ run ++ behind) ∨
      left.length < front.length ∧ ∃ ahead, before.children host = ahead ++ run ++ rest := by
  have length := List.length_pos_iff.mpr some_statement
  rw [rewrites.children_host, List.append_assoc, List.append_eq_append_iff] at split
  rcases split with ⟨skipped, rfl, split⟩ | ⟨skipped, rfl, split⟩
  · cases skipped with
    | nil =>
        obtain ⟨first, others, rfl⟩ := List.exists_cons_of_ne_nil some_statement
        exact absurd ((List.cons.inj split).1 ▸ List.mem_cons_self) apart
    | cons first skipped =>
        obtain ⟨rfl, rfl⟩ := List.cons.inj split
        refine .inr ⟨by simp, left ++ old ++ skipped, ?_⟩
        rw [rewrites.held]
        simp
  · rw [List.append_eq_append_iff] at split
    rcases split with ⟨covered, rfl, _⟩ | ⟨covered, rfl, split⟩
    · refine .inl ⟨?_, covered ++ old ++ right, ?_⟩
      · simp only [List.length_append]
        omega
      · rw [rewrites.held]
        simp
    · cases covered with
      | nil =>
          rw [List.append_nil] at length ⊢
          refine .inl ⟨?_, old ++ right, ?_⟩
          · simp only [List.length_append]
            omega
          · rw [rewrites.held]
            simp
      | cons first covered =>
          obtain ⟨rfl, _⟩ := List.cons.inj split
          simp at apart

/-- Where the statement belongs to no run, runs stood before where they stand. -/
theorem mergesAt (placed : before.IsPlaced (some host))
    (apart : ∀ {aggregate run}, after.vars.members aggregate ≠ [] → after.IsRun aggregate run →
      new ∉ run) {index : Nat} (merges : after.MergesAt host index) :
    index < left.length ∧ before.MergesAt host index ∨
      left.length < index ∧ ∃ former, before.MergesAt host former := by
  obtain ⟨front, run, rest, aggregate, rfl, split, some_member, is_run⟩ := merges
  have outside := apart some_member is_run
  have spares := rewrites.spares placed
  have known : before.vars.members aggregate ≠ [] := rewrites.vars.members ▸ some_member
  have before_run : before.IsRun aggregate run :=
    spares.isRun (by rintro _ listed rfl; exact outside listed) is_run
  rcases rewrites.split_cases (is_run.ne_nil some_member) outside split with
    ⟨ahead, behind, former⟩ | ⟨behind, ahead, former⟩
  · exact .inl ⟨ahead, front, run, behind, aggregate, rfl, former, known, before_run⟩
  · exact .inr ⟨behind, _, ahead, run, rest, aggregate, rfl, former, known, before_run⟩

/-- Where the statement takes no value and gives none, the same holds of values that can move. -/
theorem foldsAt (placed : before.IsPlaced (some host))
    (full : ∀ var pending, statement ≠ .declaration var none pending)
    (idle : ∀ expression, statement ≠ .statement expression)
    {index : Nat} (folds : after.FoldsAt host index) :
    index < left.length ∧ before.FoldsAt host index ∨
      left.length < index ∧ ∃ former, before.FoldsAt host former := by
  obtain ⟨front, declaration, next, rest, _, _, _, _, _, rfl, split, folds⟩ := folds
  have first : declaration ≠ new := by
    rintro rfl
    exact full _ _ (rewrites.node_new.symm.trans folds.declares)
  have second : next ≠ new := by
    rintro rfl
    exact idle _ (rewrites.node_new.symm.trans folds.states)
  have former := (rewrites.spares placed).folds first second folds
  have neighbours : after.children host = front ++ [declaration, next] ++ rest := by simpa using split
  rcases rewrites.split_cases (List.cons_ne_nil _ _)
    (by simp [Ne.symm first, Ne.symm second]) neighbours with
    ⟨ahead, behind, held⟩ | ⟨behind, ahead, held⟩
  · exact .inl ⟨ahead, front, declaration, next, behind, _, _, _, _, _, rfl, by simpa using held, former⟩
  · exact .inr ⟨behind, _, ahead, declaration, next, rest, _, _, _, _, _, rfl, by simpa using held,
      former⟩

end Rewrites
end Changes

/-- Rules applied to a body one after another. -/
abbrev Steps (host : NodeId) : ScriptTree → ScriptTree → Prop :=
  Relation.ReflTransGen (Step host)

section Steps

theorem Steps.isPlaced (steps : Steps host before after) (placed : before.IsPlaced (some host)) :
    after.IsPlaced (some host) := by
  induction steps with
  | refl => exact placed
  | tail _ step induction => exact step.isPlaced induction

theorem Steps.vars (steps : Steps host before after) : before.vars.Alike after.vars := by
  induction steps with
  | refl => exact .refl _
  | tail _ step induction => exact induction.trans step.vars

/-- A rule that is tried at each statement of a body leaves none for which it is meant, if it brings
none back. -/
theorem applyAll_children (rule : ScriptTree → NodeId → Option ScriptTree)
    (Bad : ScriptTree → NodeId → Prop) (Kept : ScriptTree → Prop) {rest : List NodeId}
    (placed : tree.IsPlaced (some host)) (kept : Kept tree) (distinct : rest.Nodup)
    (listed : ∀ child ∈ rest, child ∈ tree.children host)
    (bounded : ∀ child ∈ tree.children host, Bad tree child → child ∈ rest)
    (refuse : ∀ {tree child}, tree.IsPlaced (some host) → child ∈ tree.children host →
      rule tree child = none → ¬Bad tree child)
    (apply : ∀ {tree changed child}, tree.IsPlaced (some host) → Kept tree →
      child ∈ tree.children host → rule tree child = some changed →
        ∃ new statement left right, Rewrites host new statement left [child] right tree changed ∧
          tree.Rule new statement [child] ∧ Kept changed ∧
            ∀ other ∈ changed.children host, Bad changed other → other ∈ left ++ right ∧ Bad tree other) :
    Steps host tree (applyAll rule rest tree).1 ∧ Kept (applyAll rule rest tree).1 ∧
      ∀ child ∈ (applyAll rule rest tree).1.children host, ¬Bad (applyAll rule rest tree).1 child := by
  induction rest generalizing tree with
  | nil => exact ⟨.refl, kept, fun child held bad => absurd (bounded child held bad) List.not_mem_nil⟩
  | cons child rest induction =>
      obtain ⟨fresh, distinct⟩ := List.nodup_cons.mp distinct
      have here := listed child List.mem_cons_self
      rw [applyAll]
      split
      · rename_i changed applied
        obtain ⟨new, statement, left, right, rewrites, rule, kept, back⟩ :=
          apply placed kept here applied
        have still : ∀ other ∈ rest, other ∈ changed.children host := by
          intro other later
          have held := listed other (List.mem_cons_of_mem _ later)
          have different : other ≠ child := by
            rintro rfl
            exact fresh later
          rw [rewrites.held] at held
          have beside : other ∈ left ++ right := by simpa [different] using held
          rw [rewrites.children_host]
          rcases List.mem_append.mp beside with ahead | behind <;> simp [*]
        have remaining : ∀ other ∈ changed.children host, Bad changed other → other ∈ rest := by
          intro other held bad
          obtain ⟨beside, former⟩ := back other held bad
          have different : other ≠ child := by
            rintro rfl
            exact rewrites.not_mem_old placed beside (List.mem_singleton_self _)
          have listed := bounded other (rewrites.held_of_beside beside) former
          exact (List.mem_cons.mp listed).resolve_left different
        obtain ⟨steps, result⟩ :=
          induction (rewrites.isPlaced placed) kept distinct still remaining
        exact ⟨.head (.rewrite rewrites rule) steps, result⟩
      · rename_i refused
        refine induction placed kept distinct
          (fun other later => listed other (List.mem_cons_of_mem _ later)) fun other held bad => ?_
        rcases List.mem_cons.mp (bounded other held bad) with rfl | later
        · exact absurd bad (refuse placed held refused)
        · exact later

/-- A rule that is tried at each index of a body leaves none for which it is meant, if it brings none
back where it has been tried. -/
theorem applyAll_range (rule : ScriptTree → Nat → Option ScriptTree) (Bad : ScriptTree → Nat → Prop)
    (Kept : ScriptTree → Prop) (start count : Nat) (placed : tree.IsPlaced (some host))
    (kept : Kept tree) (clear : ∀ index < start, ¬Bad tree index)
    (refuse : ∀ {tree index}, rule tree index = none → ¬Bad tree index)
    (apply : ∀ {tree changed index}, tree.IsPlaced (some host) → Kept tree →
      (∀ earlier < index, ¬Bad tree earlier) → rule tree index = some changed →
        Step host tree changed ∧ Kept changed ∧
          ∀ earlier ≤ index, Bad changed earlier → ∃ older < index, Bad tree older) :
    Steps host tree (applyAll rule (List.range' start count) tree).1 ∧
      Kept (applyAll rule (List.range' start count) tree).1 ∧
        ∀ index < start + count, ¬Bad (applyAll rule (List.range' start count) tree).1 index := by
  induction count generalizing start tree with
  | zero => exact ⟨.refl, kept, clear⟩
  | succ count induction =>
      rw [List.range'_succ, applyAll]
      have shift : start + (count + 1) = start + 1 + count := by omega
      split
      · rename_i changed applied
        obtain ⟨step, kept, back⟩ := apply placed kept clear applied
        obtain ⟨steps, result⟩ := induction (start + 1) (step.isPlaced placed) kept
          fun index early bad => by
            obtain ⟨older, before, former⟩ := back index (Nat.le_of_lt_succ early) bad
            exact clear older before former
        rw [shift]
        exact ⟨.head step steps, result⟩
      · rename_i refused
        rw [shift]
        refine induction (start + 1) placed kept fun index early => ?_
        rcases Nat.lt_succ_iff_lt_or_eq.mp early with before | rfl
        · exact clear index before
        · exact refuse refused

end Steps

section Phases

/-- Number of nodes with a link. -/
def linkedCount (tree : ScriptTree) : Nat :=
  ((Finset.range tree.size).filter fun id => (tree.parent? id).isSome).card

/-- A block that was absorbed has no link any more. -/
theorem Absorbs.linkedCount_lt {inner : NodeId} (absorbs : Absorbs host inner before after)
    (placed : before.IsPlaced (some host)) : after.linkedCount < before.linkedCount := by
  have linked : ∀ id, (after.parent? id).isSome → (before.parent? id).isSome := by
    intro id
    rw [absorbs.parent?]
    split
    · rename_i held
      obtain ⟨user, used⟩ := placed.exists_link held
      simp [used]
    · split
      · exact fun absent => absurd absent Bool.false_ne_true
      · exact fun found => found
  have unlinked : after.parent? inner = none := by
    have apart : inner ∉ before.children inner := fun held => placed.ne_of_below (.inr held) rfl
    rw [absorbs.parent?, if_neg apart, if_pos rfl]
  refine Finset.card_lt_card ((Finset.ssubset_iff_of_subset ?_).mpr ⟨inner, ?_, ?_⟩)
  · intro id
    rw [Finset.mem_filter, Finset.mem_filter, absorbs.size]
    exact fun both => ⟨both.1, linked id both.2⟩
  · rw [Finset.mem_filter, Finset.mem_range, absorbs.home placed]
    exact ⟨placed.child_inside absorbs.listed, rfl⟩
  · simp [unlinked]

theorem applyAll_absorb? {places : List Nat} (placed : tree.IsPlaced (some host))
    (room : tree.IsFlat host ∨ tree.linkedCount ≤ places.length) :
    Steps host tree (applyAll (fun tree _ => tree.absorb? host) places tree).1 ∧
      (applyAll (fun tree _ => tree.absorb? host) places tree).1.IsFlat host := by
  induction places generalizing tree with
  | nil =>
      refine ⟨.refl, room.elim id fun empty => ?_⟩
      rw [← absorb?_eq_none_iff, ← Option.not_isSome_iff_eq_none]
      intro applied
      obtain ⟨changed, applied⟩ := Option.isSome_iff_exists.mp applied
      obtain ⟨inner, absorbs⟩ := exists_absorbs placed applied
      exact Nat.not_lt_zero _ (Nat.lt_of_lt_of_le (absorbs.linkedCount_lt placed) empty)
  | cons place places induction =>
      rw [applyAll]
      split
      · rename_i changed applied
        obtain ⟨inner, absorbs⟩ := exists_absorbs placed applied
        have fewer := absorbs.linkedCount_lt placed
        have bounded : tree.linkedCount ≤ places.length + 1 :=
          room.resolve_left fun flat => by simp [absorb?_eq_none_iff.mpr flat] at applied
        obtain ⟨steps, flat⟩ := induction (absorbs.isPlaced placed)
          (.inr (Nat.le_of_lt_succ (Nat.lt_of_lt_of_le fewer bounded)))
        exact ⟨.head (.absorb absorbs) steps, flat⟩
      · rename_i refused
        exact induction placed (.inl (absorb?_eq_none_iff.mp refused))

theorem flatten_spec (placed : tree.IsPlaced (some host)) :
    Steps host tree (flatten host tree).1 ∧ (flatten host tree).1.IsFlat host := by
  refine applyAll_absorb? placed (.inr ?_)
  have most := Finset.card_filter_le (Finset.range tree.size) fun id => (tree.parent? id).isSome
  rw [Finset.card_range] at most
  rw [List.length_range]
  exact most

/-- No expression stands loose in a body that does not consist of a block. -/
def IsPromoted (host : NodeId) (tree : ScriptTree) : Prop :=
  tree.IsFlat host ∧ ∀ child ∈ tree.children host, ¬tree.IsLoose host child

theorem Rewrites.isPromoted (rewrites : Rewrites host new statement left old right before after)
    (placed : before.IsPlaced (some host)) (promoted : before.IsPromoted host) :
    after.IsPromoted host := by
  refine ⟨rewrites.isFlat, fun child held loose => ?_⟩
  obtain ⟨beside, former⟩ := rewrites.isLoose placed held loose
  exact promoted.2 child (rewrites.held_of_beside beside) former

theorem promote_spec (placed : tree.IsPlaced (some host)) (flat : tree.IsFlat host) :
    Steps host tree (promote host tree).1 ∧ (promote host tree).1.IsPromoted host := by
  refine applyAll_children (promote? host) (fun tree child => tree.IsLoose host child)
    (fun tree => tree.IsFlat host) placed flat (placed.once host) (fun _ held => held)
    (fun _ held _ => held) (fun placed held => (promote?_eq_none_iff placed held).mp) ?_
  intro tree changed child placed _ held applied
  obtain ⟨expression, left, right, rewrites⟩ := exists_rewrites_of_promote? placed held applied
  exact ⟨_, _, left, right, rewrites, .promote expression, rewrites.isFlat,
    fun other => rewrites.isLoose placed⟩

/-- In addition every declaration of the body is settled. -/
def IsSettled (host : NodeId) (tree : ScriptTree) : Prop :=
  tree.IsPromoted host ∧ ∀ child ∈ tree.children host, ¬tree.IsPending child

theorem Rewrites.isSettled (rewrites : Rewrites host new statement left old right before after)
    (placed : before.IsPlaced (some host)) (same : ∀ var init,
      statement ≠ .declaration var init true) (settled : before.IsSettled host) :
    after.IsSettled host := by
  refine ⟨rewrites.isPromoted placed settled.1, fun child held pending => ?_⟩
  obtain ⟨beside, former⟩ := rewrites.isPending placed held same pending
  exact settled.2 child (rewrites.held_of_beside beside) former

theorem settle_spec (placed : tree.IsPlaced (some host)) (promoted : tree.IsPromoted host) :
    Steps host tree (settle host tree).1 ∧ (settle host tree).1.IsSettled host := by
  have result := applyAll_children settle? IsPending (IsPromoted host) placed promoted
    (placed.once host) (fun _ held => held) (fun _ held _ => held)
    (fun _ _ => settle?_eq_none_iff.mp) fun {tree changed child} placed promoted held applied => by
      obtain ⟨var, init, left, right, pending, rewrites⟩ :=
        exists_rewrites_of_settle? placed held applied
      exact ⟨_, _, left, right, rewrites, .settle pending, rewrites.isPromoted placed promoted,
        fun other held => rewrites.isPending placed held (by simp)⟩
  exact result

/-- In addition no run of member declarations is left in the body, unless aggregates are members. -/
def IsMerged (host : NodeId) (tree : ScriptTree) : Prop :=
  tree.IsSettled host ∧ (tree.vars.IsShallow → ∀ index, ¬tree.MergesAt host index)

theorem MergesAt.lt {index : Nat} (merges : tree.MergesAt host index) :
    index < (tree.children host).length := by
  obtain ⟨left, run, right, aggregate, rfl, split, some_member, is_run⟩ := merges
  have length := List.length_pos_iff.mpr (is_run.ne_nil some_member)
  rw [split]
  simp
  omega

theorem FoldsAt.lt {index : Nat} (folds : tree.FoldsAt host index) :
    index < (tree.children host).length := by
  obtain ⟨left, _, _, right, _, _, _, _, _, rfl, split, _⟩ := folds
  simp [split]

theorem mergeMembers_spec (placed : tree.IsPlaced (some host)) (settled : tree.IsSettled host) :
    Steps host tree (mergeMembers host tree).1 ∧ (mergeMembers host tree).1.IsMerged host := by
  have result := applyAll_range (merge? host)
    (fun tree index => tree.vars.IsShallow ∧ tree.MergesAt host index)
    (fun changed => changed.IsSettled host ∧
      (changed.children host).length ≤ (tree.children host).length) 0 (tree.children host).length
    placed ⟨settled, Nat.le_refl _⟩ (fun index early => absurd early (Nat.not_lt_zero _))
    (fun refused merges => merge?_eq_none_iff.mp refused merges.2)
    fun {before after index} placed kept _ applied => ?_
  · rw [← List.range_eq_range', Nat.zero_add] at result
    obtain ⟨steps, ⟨settled, short⟩, clear⟩ := result
    exact ⟨steps, settled, fun shallow index merges =>
      clear index (Nat.lt_of_lt_of_le merges.lt short) ⟨shallow, merges⟩⟩
  obtain ⟨left, run, right, aggregate, rfl, split, some_member, is_run, result⟩ :=
    exists_run_of_merge? applied
  have rewrites := rewrites_of_isRun placed split some_member is_run
  rw [← result] at rewrites
  refine ⟨.rewrite rewrites (.merge is_run), ⟨rewrites.isSettled placed (by simp) kept.1,
    Nat.le_trans rewrites.length_le kept.2⟩, fun earlier early ⟨shallow, merges⟩ => ?_⟩
  -- An aggregate is no member of the aggregates that a run could belong to.
  have apart : ∀ {outer others}, after.vars.members outer ≠ [] → after.IsRun outer others →
      before.size ∉ others := by
    intro outer others _ others_run listed
    obtain ⟨member, pending, here, linked, inside⟩ := others_run.declares listed
    obtain ⟨rfl, -, -⟩ := Node.declaration.inj (rewrites.node_new.symm.trans here)
    exact shallow _ _ (rewrites.vars.members ▸ some_member) linked inside
  rcases rewrites.mergesAt placed apart merges with ⟨ahead, former⟩ | ⟨behind, _⟩
  · exact ⟨earlier, ahead, rewrites.vars.symm.isShallow shallow, former⟩
  · exact absurd behind (Nat.not_lt.mpr early)

theorem foldInitializers_spec (placed : tree.IsPlaced (some host)) (merged : tree.IsMerged host) :
    Steps host tree (foldInitializers host tree).1 ∧ (foldInitializers host tree).1.IsMerged host ∧
      ∀ index, ¬(foldInitializers host tree).1.FoldsAt host index := by
  have result := applyAll_range (foldInitializer? host) (fun tree => tree.FoldsAt host)
    (fun changed => changed.IsMerged host ∧
      (changed.children host).length ≤ (tree.children host).length) 0 (tree.children host).length
    placed ⟨merged, Nat.le_refl _⟩ (fun index early => absurd early (Nat.not_lt_zero _))
    foldInitializer?_eq_none_iff.mp fun {before after index} placed kept _ applied => ?_
  · rw [← List.range_eq_range', Nat.zero_add] at result
    obtain ⟨steps, ⟨merged, short⟩, clear⟩ := result
    exact ⟨steps, merged, fun index folds =>
      clear index (Nat.lt_of_lt_of_le folds.lt short) folds⟩
  obtain ⟨left, declaration, next, right, var, pending, _, _, value, rfl, split, folds, result⟩ :=
    exists_folds_of_foldInitializer? applied
  have rewrites := rewrites_of_folds placed split folds
  rw [← result] at rewrites
  have here : declaration ∈ before.children host := by simp [split]
  have settled : ∀ var' init, Node.declaration var (some value) pending ≠
      .declaration var' init true := by
    rintro _ _ same
    obtain ⟨-, -, rfl⟩ := Node.declaration.inj same
    exact kept.1.1.2 declaration here ⟨_, _, folds.declares⟩
  refine ⟨.rewrite rewrites (.fold folds), ⟨⟨rewrites.isSettled placed settled kept.1.1,
    fun shallow index merges => ?_⟩, Nat.le_trans rewrites.length_le kept.2⟩,
    fun earlier early later => ?_⟩
  · have apart : ∀ {outer others}, after.vars.members outer ≠ [] → after.IsRun outer others →
        declaration ∉ others := by
      intro outer others _ others_run listed
      obtain ⟨_, _, declares, _⟩ := others_run.declares listed
      simpa using rewrites.node_new.symm.trans declares
    have clear := kept.1.2 (rewrites.vars.symm.isShallow shallow)
    rcases rewrites.mergesAt placed apart merges with ⟨_, former⟩ | ⟨_, _, former⟩
    · exact clear _ former
    · exact clear _ former
  · rcases rewrites.foldsAt placed (by simp) (by simp) later with former | ⟨behind, _⟩
    · exact ⟨earlier, former⟩
    · exact absurd behind (Nat.not_lt.mpr early)

/-- The rules are applied to a body in turn. -/
theorem cleanBody_fst (owns : (tree.node host).body?.isSome) : (cleanBody host tree).1 =
    (foldInitializers host (mergeMembers host (settle host
      (promote host (flatten host tree).1).1).1).1).1 := by
  rw [cleanBody, if_pos owns]
  simp only [Tidying.andThen]

/-- A body is tidy when it has been cleaned, unless aggregates are members of aggregates. -/
theorem cleanBody_spec (placed : tree.IsPlaced (some host)) (owns : (tree.node host).body?.isSome) :
    Steps host tree (cleanBody host tree).1 ∧ (cleanBody host tree).1.IsPromoted host ∧
      (tree.vars.IsShallow → (cleanBody host tree).1.IsTidy host) := by
  rw [cleanBody_fst owns]
  obtain ⟨flattening, flat⟩ := flatten_spec placed
  have placed := flattening.isPlaced placed
  obtain ⟨promoting, promoted⟩ := promote_spec placed flat
  have placed := promoting.isPlaced placed
  obtain ⟨settling, settled⟩ := settle_spec placed promoted
  have placed := settling.isPlaced placed
  obtain ⟨merging, merged⟩ := mergeMembers_spec placed settled
  have placed := merging.isPlaced placed
  obtain ⟨folding, ⟨⟨promoted, settled⟩, merged⟩, folded⟩ := foldInitializers_spec placed merged
  have steps := flattening.trans (promoting.trans (settling.trans (merging.trans folding)))
  exact ⟨steps, promoted, fun shallow => ⟨promoted.1, promoted.2, settled,
    merged (Steps.vars steps |>.isShallow shallow), folded⟩⟩

end Phases

section Cleaning

/-- Where no expression stands loose in a body, no statement links to that body for being in use. -/
theorem IsPlaced.of_promoted (placed : tree.IsPlaced (some host)) (promoted : tree.IsPromoted host) :
    tree.IsPlaced none :=
  { placed with
    linked := fun {holder child} held => by
      rcases placed.linked held with own | ⟨expression, user, used, bare | ⟨same, there⟩⟩
      · exact .inl own
      · exact .inr ⟨expression, user, used, .inl bare⟩
      · obtain rfl := Option.some.inj same
        exact absurd ⟨expression, used⟩ (promoted.2 child there) }

theorem IsPlaced.some (placed : tree.IsPlaced none) (host : NodeId) : tree.IsPlaced (some host) :=
  { placed with
    linked := fun {holder child} held => by
      rcases placed.linked held with own | ⟨expression, user, used, bare | ⟨same, _⟩⟩
      · exact .inl own
      · exact .inr ⟨expression, user, used, .inl bare⟩
      · cases same }

theorem Steps.body?_isSome_iff (steps : Steps host before after) (id : NodeId) :
    (after.node id).body?.isSome ↔ (before.node id).body?.isSome := by
  induction steps with
  | refl => exact Iff.rfl
  | tail _ step induction =>
      cases step with
      | absorb absorbs => exact (absorbs.body?_isSome_iff id).trans induction
      | rewrite rewrites => exact (rewrites.body?_isSome_iff id).trans induction

theorem Steps.reaches_body (steps : Steps host before after) (placed : before.IsPlaced (some host))
    {id : NodeId} (reaches : after.Reaches root id) (owns : (after.node id).body?.isSome) :
    before.Reaches root id := by
  induction steps with
  | refl => exact reaches
  | tail former step induction =>
      obtain ⟨earlier, owned⟩ := step.reaches_body (Steps.isPlaced former placed) reaches owns
      exact induction earlier owned

/-- The rules applied to one body leave other bodies tidy. -/
theorem Steps.isTidy (steps : Steps host before after) (placed : before.IsPlaced (some host))
    {body : NodeId} (other : body ≠ host) (owns : (before.node body).body?.isSome)
    (tidy : before.IsTidy body) : after.IsTidy body := by
  induction steps with
  | refl => exact tidy
  | tail former step induction =>
      exact step.isTidy (Steps.isPlaced former placed) other
        ((Steps.body?_isSome_iff former body).mpr owns) induction

/-- What cleaning bodies leads to: a tree of the same kind without further bodies. -/
structure Cleans (before after : ScriptTree) : Prop where
  /-- Child statements have one place. -/
  placed : after.IsPlaced none
  /-- Aggregates and members stay. -/
  vars : before.vars.Alike after.vars
  /-- The same nodes own statements. -/
  owns : ∀ id, (after.node id).body?.isSome ↔ (before.node id).body?.isSome
  /-- Bodies that can be reached could be reached before. -/
  reaches : ∀ id, after.Reaches root id → (after.node id).body?.isSome → before.Reaches root id
  /-- Tidy bodies stay tidy. -/
  tidy : ∀ id, (before.node id).body?.isSome → before.IsTidy id → after.IsTidy id

theorem cleans_cleanBody (placed : tree.IsPlaced none) (shallow : tree.vars.IsShallow)
    (node : NodeId) : tree.Cleans (cleanBody node tree).1 ∧
      ((tree.node node).body?.isSome → (cleanBody node tree).1.IsTidy node) := by
  by_cases owns : (tree.node node).body?.isSome
  · obtain ⟨steps, promoted, tidy⟩ := cleanBody_spec (placed.some node) owns
    have tidy := tidy shallow
    refine ⟨⟨(Steps.isPlaced steps (placed.some node)).of_promoted promoted, steps.vars,
      steps.body?_isSome_iff, fun id => steps.reaches_body (placed.some node),
      fun id owned kept => ?_⟩, fun _ => tidy⟩
    by_cases same : id = node
    · exact same ▸ tidy
    · exact steps.isTidy (placed.some node) same owned kept
  · rw [cleanBody, if_neg owns]
    exact ⟨⟨placed, .refl _, fun _ => Iff.rfl, fun _ reaches _ => reaches, fun _ _ tidy => tidy⟩,
      fun owned => absurd owned owns⟩

/-- Bodies that were cleaned in turn are tidy in the end. -/
theorem cleans_cleanAll (placed : tree.IsPlaced none) (shallow : tree.vars.IsShallow)
    (nodes : List NodeId) : tree.Cleans (cleanAll nodes tree).1 ∧
      ∀ node ∈ nodes, (tree.node node).body?.isSome → (cleanAll nodes tree).1.IsTidy node := by
  induction nodes generalizing tree with
  | nil =>
      exact ⟨⟨placed, .refl _, fun _ => Iff.rfl, fun _ reaches _ => reaches, fun _ _ tidy => tidy⟩,
        fun _ listed => absurd listed List.not_mem_nil⟩
  | cons node nodes induction =>
      obtain ⟨here, tidy⟩ := cleans_cleanBody placed shallow node
      obtain ⟨later, others⟩ := induction here.placed (here.vars.isShallow shallow)
      show tree.Cleans (cleanAll nodes (cleanBody node tree).1).1 ∧ ∀ other ∈ node :: nodes, _ →
        (cleanAll nodes (cleanBody node tree).1).1.IsTidy other
      refine ⟨⟨later.placed, here.vars.trans later.vars,
        fun id => (later.owns id).trans (here.owns id),
        fun id reaches owns => here.reaches id (later.reaches id reaches owns)
          ((later.owns id).mp owns), fun id owns kept => later.tidy id ((here.owns id).mpr owns)
            (here.tidy id owns kept)⟩, ?_⟩
      rintro other listed owns
      have owned := (here.owns other).mpr owns
      rcases List.mem_cons.mp listed with rfl | behind
      · exact later.tidy _ owned (tidy owns)
      · exact others other behind owned

/-- Where all bodies are tidy, nothing changes. -/
theorem cleanAll_eq_self (placed : tree.IsPlaced none) {nodes : List NodeId}
    (tidy : ∀ node ∈ nodes, (tree.node node).body?.isSome → tree.IsTidy node) :
    cleanAll nodes tree = (tree, 0) := by
  induction nodes with
  | nil => rfl
  | cons node nodes induction =>
      have one : cleanBody node tree = (tree, 0) := by
        by_cases owns : (tree.node node).body?.isSome
        · exact (tidy node List.mem_cons_self owns).cleanBody_eq_self (placed.some node)
        · rw [cleanBody, if_neg owns]
      have others := induction fun other listed => tidy other (List.mem_cons_of_mem _ listed)
      rw [cleanAll, Tidying.andThen]
      simp only [one, others]

/-- The bodies that a walk of a cleaned tree meets are tidy. -/
theorem IsPlaced.cleanup_isTidy (placed : tree.IsPlaced none) (shallow : tree.vars.IsShallow)
    {node : NodeId} (met : node ∈ tree.cleanup.1.walk)
    (owns : (tree.cleanup.1.node node).body?.isSome) : tree.cleanup.1.IsTidy node := by
  obtain ⟨cleans, tidy⟩ := cleans_cleanAll placed shallow tree.walk
  refine tidy node (mem_walk_iff.mpr ?_) ((cleans.owns node).mp owns)
  exact cleans.reaches node (reaches_of_mem_walkFrom met) owns

theorem IsPlaced.cleanup_stable (placed : tree.IsPlaced none) (shallow : tree.vars.IsShallow) :
    tree.cleanup.1.cleanup = (tree.cleanup.1, 0) :=
  cleanAll_eq_self (cleans_cleanAll placed shallow tree.walk).1.placed
    fun _ => placed.cleanup_isTidy shallow

/-- Every child statement links to the one body that holds it, and nothing is below itself. -/
structure IsAnchored (tree : ScriptTree) : Prop where
  /-- Every node has a link. -/
  sized : tree.parents.size = tree.size
  /-- The root owns statements. -/
  rooted : (tree.node root).body?.isSome
  /-- Operands and child statements are nodes of the tree. -/
  inside : ∀ {upper lower : NodeId}, tree.Below upper lower → lower < tree.size
  /-- Child statements link to their holder. -/
  linked : ∀ {holder child : NodeId}, child ∈ tree.children holder →
    tree.parent? child = some holder
  /-- No statement stands in two bodies. -/
  single : ∀ {first second child : NodeId}, child ∈ tree.children first →
    child ∈ tree.children second → first = second
  /-- Nothing is below itself. -/
  acyclic : tree.IsAcyclic

/-- Child statements of an anchored tree have one place, provided that none stands twice in a body and
that only expressions are child statements and operands at once. -/
theorem IsAnchored.isPlaced (anchored : tree.IsAnchored)
    (once : ∀ holder, (tree.children holder).Nodup)
    (apart : ∀ {user operand holder : NodeId}, operand ∈ (tree.node user).operands →
      operand ∈ tree.children holder → (tree.node operand).isExpression) : tree.IsPlaced none where
  sized := anchored.sized
  rooted := anchored.rooted
  inside := anchored.inside
  linked := fun held => .inl (anchored.linked held)
  once := once
  acyclic := anchored.acyclic
  apart := apart

/-- Every child statement links to the one body that holds it, nothing is below itself, and no
aggregate is a member of an aggregate. -/
structure IsLinked (tree : ScriptTree) : Prop where
  /-- Every node has a link. -/
  sized : tree.parents.size = tree.size
  /-- The root owns statements. -/
  rooted : (tree.node root).body?.isSome
  /-- Operands and child statements are nodes of the tree. -/
  inside : ∀ {upper lower : NodeId}, tree.Below upper lower → lower < tree.size
  /-- Child statements link to their holder. -/
  linked : ∀ {holder child : NodeId}, child ∈ tree.children holder →
    tree.parent? child = Option.some holder
  /-- No statement stands in two bodies. -/
  single : ∀ {first second child : NodeId}, child ∈ tree.children first →
    child ∈ tree.children second → first = second
  /-- Nothing is below itself. -/
  acyclic : tree.IsAcyclic
  /-- No aggregate is a member of an aggregate. -/
  flat : ∀ {whole outer : VarId}, tree.vars.members whole ≠ [] → whole ∉ tree.vars.members outer

theorem IsLinked.isAnchored (linked : tree.IsLinked) : tree.IsAnchored :=
  { linked with }

/-- A cleaned tree is left exactly as it is, provided that no statement stands twice in a body and
that only expressions are child statements and operands at once. -/
theorem cleanup_cleanup (linked : tree.IsLinked) (once : ∀ holder, (tree.children holder).Nodup)
    (apart : ∀ {user operand holder : NodeId}, operand ∈ (tree.node user).operands →
      operand ∈ tree.children holder → (tree.node operand).isExpression) :
    tree.cleanup.1.cleanup = (tree.cleanup.1, 0) :=
  (linked.isAnchored.isPlaced once apart).cleanup_stable
    fun _ _ some_member _ => linked.flat some_member

end Cleaning

section Samples

/-- A tree is linked if its nodes are in an order in which everything is above what is below it. -/
theorem isLinked_of_rank (rank : NodeId → Nat) (sized : tree.parents.size = tree.size)
    (rooted : (tree.node root).body?.isSome)
    (below : ∀ upper < tree.size, ∀ lower ∈ (tree.node upper).operands ++ tree.children upper,
      lower < tree.size ∧ rank lower < rank upper)
    (linked : ∀ holder < tree.size, ∀ child ∈ tree.children holder,
      tree.parent? child = some holder)
    (flat : ∀ whole < tree.vars.size, tree.vars.members whole ≠ [] → ∀ outer < tree.vars.size,
      whole ∉ tree.vars.members outer) : tree.IsLinked := by
  have home : ∀ {holder child}, child ∈ tree.children holder → tree.parent? child = some holder :=
    fun held => linked _ (lt_of_mem_children held) _ held
  have known : ∀ {var : VarId}, tree.vars.members var ≠ [] → var < tree.vars.size := by
    intro var some_member
    by_contra outside
    rw [VarTable.members, VarTable.get?, Array.getElem?_eq_none (Nat.not_lt.mp outside)] at some_member
    exact some_member rfl
  have down : ∀ {upper lower}, tree.Below upper lower →
      lower < tree.size ∧ rank lower < rank upper := fun edge =>
    below _ edge.lt _ (List.mem_append.mpr edge)
  refine ⟨sized, rooted, fun edge => (down edge).1, home, fun first second => ?_, ?_, ?_⟩
  · exact Option.some.inj ((home first).symm.trans (home second))
  · intro id circle
    have falls : ∀ {lower}, Relation.TransGen tree.Below id lower → rank lower < rank id := by
      intro lower chain
      induction chain with
      | single edge => exact (down edge).2
      | tail _ edge induction => exact Nat.lt_trans (down edge).2 induction
    exact Nat.lt_irrefl _ (falls circle)
  · intro whole outer some_member member
    exact flat whole (known some_member) some_member outer
      (known (List.ne_nil_of_mem member)) member

/-- Only nodes of the tree hold statements. -/
theorem nodup_children_of_lt (once : ∀ holder < tree.size, (tree.children holder).Nodup)
    (holder : NodeId) : (tree.children holder).Nodup := by
  by_cases inside : holder < tree.size
  · exact once holder inside
  · rw [children_of_le (Nat.not_lt.mp inside)]
    exact List.nodup_nil

theorem isExpression_of_lt (apart : ∀ user < tree.size, ∀ operand ∈ (tree.node user).operands,
    ∀ holder < tree.size, operand ∈ tree.children holder → (tree.node operand).isExpression)
    {user operand holder : NodeId} (used : operand ∈ (tree.node user).operands)
    (held : operand ∈ tree.children holder) : (tree.node operand).isExpression :=
  apart user (Below.lt (.inl used)) operand used holder (lt_of_mem_children held) held

/-- A tree with some nodes, links and variables. -/
def sample (nodes : List Node) (parents : List (Option NodeId)) (vars : List Variable) : ScriptTree :=
  { start 0 .function { name := "f", returnType := .void } 0 40 "  " with
    nodes := nodes.toArray
    parents := parents.toArray
    vars := ⟨vars.toArray⟩ }

/-- A block inside the body declares two members and another variable, which is assigned a value. -/
def untidy : ScriptTree :=
  sample
    [.block { children := [1], start := 0, limit := 40 },
      .block { children := [2, 3, 4, 7], start := 0, limit := 40 },
      .declaration 0 none false, .declaration 1 none false, .declaration 3 none true,
      .reference 3, .literal (.int 7), .assign 5 6]
    [none, some 0, some 1, some 1, some 1, some 7, some 7, some 1]
    [{ kind := .localVar, type := .int, parent := some 2 },
      { kind := .localVar, type := .int, parent := some 2 },
      { kind := .localVar, type := .ofMembers [.int, .int], members := [0, 1] },
      { kind := .localVar, type := .int }]

/-- Each of the five rules applies once to the sample, and none applies to the result. -/
theorem cleanup_cleanup_untidy :
    untidy.cleanup.2 = 5 ∧ untidy.cleanup.1.cleanup = (untidy.cleanup.1, 0) := by
  have linked : untidy.IsLinked := isLinked_of_rank ([9, 8, 0, 0, 0, 0, 0, 7].getD · 0)
    (by decide) (by decide) (by decide) (by decide) (by decide)
  exact ⟨by decide +kernel, cleanup_cleanup linked (nodup_children_of_lt (by decide))
    (isExpression_of_lt (by decide))⟩

/-- The only member of an aggregate is declared by one statement that stands twice in the body. -/
def doubled : ScriptTree :=
  sample
    [.block { children := [1, 1], start := 0, limit := 40 }, .declaration 0 none false]
    [none, some 0]
    [{ kind := .localVar, type := .int, parent := some 1 },
      { kind := .localVar, type := .ofMembers [.int], members := [0] }]

/-- A declaration in a nested block is at the same time the value of an assignment. -/
def shared : ScriptTree :=
  sample
    [.block { children := [2, 5, 6], start := 0, limit := 40 }, .declaration 0 none false,
      .declaration 2 none false, .reference 2, .assign 3 1, .statement 4,
      .block { children := [1], start := 20, limit := 30 }]
    [none, some 6, some 0, some 4, some 4, some 0, some 0]
    [{ kind := .localVar, type := .int, parent := some 1 },
      { kind := .localVar, type := .ofMembers [.int], members := [0] },
      { kind := .localVar, type := .int }]

/-- A statement that stands twice in a body, or a declaration that is also an operand, keeps the
second cleanup busy. -/
theorem cleanup_cleanup_ne : (doubled.IsLinked ∧ doubled.cleanup.1.cleanup.2 = 1) ∧
    shared.IsLinked ∧ shared.cleanup.1.cleanup.2 = 1 := by
  refine ⟨⟨isLinked_of_rank ([1, 0].getD · 0) ?_ ?_ ?_ ?_ ?_, by decide +kernel⟩,
    isLinked_of_rank ([3, 0, 0, 0, 1, 2, 2].getD · 0) ?_ ?_ ?_ ?_ ?_, by decide +kernel⟩ <;> decide

end Samples

end ScriptTree
end NwScript
