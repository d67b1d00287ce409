import NwScript.Proofs.CleanupTwice
import NwScript.Proofs.PassingWalks

/-!
# What the steps of a cleanup gather

A rule changes one body, and there what is gathered stays the same, up to assignments that are passed
before and are gone afterwards.  So a whole cleanup loses nothing but the assignments that it folds into
declarations.
-/

namespace NwScript
namespace ScriptTree

variable {α : Type} {before after tree : ScriptTree} {host inner new child id : NodeId}
  {statement : Node} {left old right : List NodeId} {folded later : NodeId → NodeId → Bool}
  {give : NodeId → Node → List α}

namespace Spares

variable (spares : Spares new before after)

include spares

theorem assignment?_eq (other : child ≠ new) : after.assignment? child = before.assignment? child := by
  obtain ⟨statements, same⟩ := spares.node child other
  rw [assignment?, assignment?, same]
  cases kind : before.node child with
  | statement expression =>
      have used : expression ∈ (before.node child).operands := by simp [kind, Node.operands]
      have unlike := spares.ne_of_operand used
      obtain ⟨others, there⟩ := spares.node expression unlike
      simp only [Node.mapBody, there]
      cases before.node expression <;> rfl
  | _ => rfl

theorem passed_eq (other : child ≠ new) {holder former : NodeId}
    (same : later holder child = folded former child) :
    after.passed later holder child = before.passed folded former child := by
  rw [passed, passed, spares.assignment?_eq other, same]

theorem passed_ne (other : child ≠ new) (holder : NodeId) : before.passed folded holder child ≠ new := by
  rcases before.passed_cases folded holder child with same | ⟨_, target, assigns⟩
  · rwa [same]
  · obtain ⟨user, here, _⟩ := exists_user_of_assignment? assigns
    have used : before.passed folded holder child ∈ (before.node user).operands := by
      rw [here]
      simp [Node.operands]
    exact spares.ne_of_operand used

theorem give_eq (quiet : IsQuiet give) (other : id ≠ new) :
    give id (after.node id) = give id (before.node id) := by
  obtain ⟨statements, same⟩ := spares.node id other
  rw [same, quiet.holding]

end Spares

section Absorbs

/-- Places in a block are passed as they are in the body that absorbs it. -/
def passAround (folded : NodeId → NodeId → Bool) (host inner : NodeId) : NodeId → NodeId → Bool :=
  fun holder => folded (if holder = inner then host else holder)

namespace Absorbs

variable (absorbs : Absorbs host inner before after)

include absorbs

theorem give_eq (quiet : IsQuiet give) (id : NodeId) :
    give id (after.node id) = give id (before.node id) := by
  obtain ⟨statements, same⟩ := absorbs.exists_node_eq id
  rw [same, quiet.holding]

/-- The block is right below its body only. -/
theorem ne_of_mem_pathsFrom (placed : before.IsPlaced (some host)) {next : NodeId}
    (listed : next ∈ after.pathsFrom folded id) : next ≠ inner := by
  have plain := Node.not_isExpression_of_isBlock absorbs.block
  have unused : ∀ user, inner ∉ (after.node user).operands := by
    intro user used
    rw [absorbs.operands] at used
    simpa [plain] using placed.apart used absorbs.listed
  rcases List.mem_append.mp listed with used | there
  · rintro rfl
    exact unused _ used
  obtain ⟨child, held, rfl⟩ := List.mem_map.mp there
  rcases after.passed_cases folded id child with same | ⟨_, target, assigns⟩
  · rw [same]
    rintro rfl
    rcases absorbs.child_cases placed held with ⟨_, there⟩ | ⟨other, there⟩
    · exact placed.ne_of_below (.inr there) rfl
    · exact other (Option.some.inj ((placed.home there plain).symm.trans (absorbs.home placed)))
  · obtain ⟨user, here, _⟩ := exists_user_of_assignment? assigns
    intro same
    exact unused user (by rw [here, ← same]; simp [Node.operands])

/-- What is right below a node gathers what was right below it, where the block stands for its
statements. -/
theorem flatMap_pathsFrom (placed : before.IsPlaced (some host))
    (silent : give inner (before.node inner) = []) (other : id ≠ inner) :
    (after.pathsFrom folded id).flatMap (before.gathered (passAround folded host inner) give) =
      (before.pathsFrom (passAround folded host inner) id).flatMap
        (before.gathered (passAround folded host inner) give) := by
  have passed : ∀ {holder child}, child ∈ before.children holder →
      after.passed folded (if holder = inner then host else holder) child =
        before.passed (passAround folded host inner) holder child := fun held =>
    (absorbs.spares placed).passed_eq (Nat.ne_of_lt (placed.child_inside held)) rfl
  rw [pathsFrom, pathsFrom, absorbs.operands, List.flatMap_append, List.flatMap_append]
  congr 1
  by_cases here : id = host
  · subst here
    have unused : (before.node inner).operands = [] := by
      have block := absorbs.block
      cases kind : before.node inner <;> simp_all [Node.isBlock, Node.operands]
    have single : before.passed (passAround folded id inner) id inner = inner := by
      rw [ScriptTree.passed, assignment?_of_isBlock absorbs.block]
    rw [absorbs.held, absorbs.children_host, List.map_singleton, List.flatMap_singleton, single,
      placed.gathered_eq, silent, List.nil_append, pathsFrom, unused, List.nil_append]
    congr 1
    refine List.map_congr_left fun child held => ?_
    rw [← passed held, if_pos rfl]
  · rw [absorbs.children_of_ne here other]
    congr 1
    refine List.map_congr_left fun child held => ?_
    rw [← passed held, if_neg other]

/-- When a body takes over the statements of a block, what is gathered in it stays. -/
theorem gathered_eq (placed : before.IsPlaced (some host)) (quiet : IsQuiet give)
    (silent : give inner (before.node inner) = []) (other : id ≠ inner) :
    after.gathered folded give id = before.gathered (passAround folded host inner) give id := by
  have next := absorbs.isPlaced placed
  generalize size : after.height id = bound
  induction bound using Nat.strong_induction_on generalizing id with
  | _ bound induction =>
      subst size
      rw [next.gathered_eq, placed.gathered_eq, absorbs.give_eq quiet,
        ← absorbs.flatMap_pathsFrom placed silent other]
      congr 1
      exact List.flatMap_congr fun lower listed =>
        induction _ (next.height_lt (transGen_of_mem_pathsFrom listed))
          (absorbs.ne_of_mem_pathsFrom placed listed) rfl

end Absorbs
end Absorbs

section Rewrites

namespace Rewrites

variable (rewrites : Rewrites host new statement left old right before after)

include rewrites

/-- When a statement takes the place of others, what is gathered elsewhere stays, provided that the same
is gathered in its place. -/
theorem gathered_eq (placed : before.IsPlaced (some host)) (quiet : IsQuiet give)
    (beside : ∀ {holder child}, holder ≠ host ∨ child ∉ old → later holder child = folded holder child)
    (inside : (∀ {id}, id ≠ new → Relation.TransGen after.Below host id →
      after.gathered later give id = before.gathered folded give id) →
        after.gathered later give (after.passed later host new) =
          old.flatMap fun child => before.gathered folded give (before.passed folded host child))
    (other : id ≠ new) : after.gathered later give id = before.gathered folded give id := by
  have spares := rewrites.spares placed
  have next := rewrites.isPlaced placed
  generalize size : after.height id = bound
  induction bound using Nat.strong_induction_on generalizing id with
  | _ bound induction =>
      subst size
      have lower : ∀ {next}, Relation.TransGen after.Below id next → next ≠ new →
          after.gathered later give next = before.gathered folded give next :=
        fun chain unlike => induction _ (next.height_lt chain) unlike rfl
      -- Other child statements are passed or not as before.
      have children : ∀ {statements}, statements ⊆ after.children id → new ∉ statements →
          (∀ child ∈ statements, id ≠ host ∨ child ∉ old) →
            (statements.map (after.passed later id)).flatMap (after.gathered later give) =
              (statements.map (before.passed folded id)).flatMap (before.gathered folded give) := by
        intro statements held apart kept
        rw [List.flatMap_map, List.flatMap_map]
        refine List.flatMap_congr fun child listed => ?_
        have unlike : child ≠ new := fun same => apart (same ▸ listed)
        have same := spares.passed_eq unlike (beside (kept child listed))
        have below : after.passed later id child ∈ after.pathsFrom later id :=
          List.mem_append_right _ (List.mem_map_of_mem (held listed))
        rw [lower (transGen_of_mem_pathsFrom below) (same ▸ spares.passed_ne unlike id), same]
      have operands : (after.node id).operands.flatMap (after.gathered later give) =
          (before.node id).operands.flatMap (before.gathered folded give) := by
        rw [← rewrites.operands_of_ne other]
        refine List.flatMap_congr fun operand used => lower (.single (.inl used)) ?_
        rw [rewrites.operands_of_ne other] at used
        exact spares.ne_of_operand used
      rw [next.gathered_eq, placed.gathered_eq, spares.give_eq quiet other, pathsFrom, pathsFrom,
        List.flatMap_append, List.flatMap_append, operands]
      congr 2
      by_cases here : id = host
      · subst here
        have siblings : ∀ statements, statements ⊆ left ++ right →
            (statements.map (after.passed later id)).flatMap (after.gathered later give) =
              (statements.map (before.passed folded id)).flatMap (before.gathered folded give) :=
          fun statements aside => by
            refine children (fun child listed => ?_) (fun listed => ?_) fun child listed => ?_
            · rw [rewrites.children_host]
              have there := aside listed
              simp only [List.mem_append, List.mem_cons] at there ⊢
              tauto
            · exact rewrites.new_not_mem placed (aside listed)
            · exact .inr (rewrites.not_mem_old placed (aside listed))
        have ahead := siblings left (List.subset_append_left left right)
        have behind := siblings right (List.subset_append_right left right)
        have between := inside fun other chain => lower chain other
        rw [rewrites.children_host, rewrites.held, List.append_assoc]
        simp only [List.map_append, List.map_cons, List.flatMap_append, List.flatMap_cons, ahead,
          behind, between, List.flatMap_map]
      · rw [children (List.Subset.refl _) (fun held => ?_) fun _ _ => .inl here,
          rewrites.children_of_ne here]
        rw [rewrites.children_of_ne here] at held
        exact here (rewrites.holder_eq_host placed held)

end Rewrites
end Rewrites

section Rules

/-- Decide for one more place whether it is passed. -/
def passAt (folded : NodeId → NodeId → Bool) (host child : NodeId) (passes : Bool) :
    NodeId → NodeId → Bool :=
  Function.update folded host (Function.update (folded host) child passes)

@[simp]
theorem passAt_self (folded : NodeId → NodeId → Bool) (host child : NodeId) (passes : Bool) :
    passAt folded host child passes host child = passes := by
  simp [passAt]

theorem passAt_of_ne {holder sibling : NodeId} {passes : Bool}
    (other : holder ≠ host ∨ sibling ≠ child) :
    passAt folded host child passes holder sibling = folded holder sibling := by
  by_cases here : holder = host
  · subst here
    rw [passAt, Function.update_self, Function.update_of_ne (other.resolve_left (· rfl))]
  · rw [passAt, Function.update_of_ne here]

theorem passed_of_declaration {holder : NodeId} {var : VarId} {init : Option NodeId} {pending : Bool}
    (here : tree.node child = .declaration var init pending) :
    tree.passed folded holder child = child := by
  rw [passed, assignment?, here]

/-- What a walk passes before a rule is applied, if it passes other places afterwards: the same is
gathered, and assignments that are passed in addition have become values of declarations. -/
structure Passes (host new : NodeId) (statement : Node) (old : List NodeId) (before after : ScriptTree)
    (folded later : NodeId → NodeId → Bool) : Prop where
  /-- Other places are passed or not as afterwards. -/
  beside : ∀ {holder child}, holder ≠ host ∨ child ∉ old → later holder child = folded holder child
  /-- The same is gathered. -/
  gathered : ∀ {α : Type} {give : NodeId → Node → List α}, IsQuiet give → ∀ {id}, id ≠ new →
    after.gathered later give id = before.gathered folded give id
  /-- An assignment stands in the new place, or its value is that of a declaration there. -/
  target : ∀ child ∈ old, folded host child → ∀ {target value},
    before.assignment? child = some (target, value) →
      later host new ∧ after.assignment? new = some (target, value) ∨ ∃ var pending,
        before.node target = .reference var ∧ statement = .declaration var (some value) pending

/-- The statement that evaluates an expression is passed where the expression is. -/
theorem Rewrites.passes_of_promote
    (rewrites : Rewrites host before.size (.statement child) left [child] right before after)
    (placed : before.IsPlaced (some host)) (expression : (before.node child).isExpression) :
    Passes host before.size (.statement child) [child] before after
      (passAt later host child (later host before.size)) later := by
  have next := rewrites.isPlaced placed
  have spares := rewrites.spares placed
  have held := rewrites.held_of_mem (List.mem_singleton_self child)
  have other : child ≠ before.size := Nat.ne_of_lt (placed.child_inside held)
  have same : after.assignment? before.size = before.assignment? child := by
    obtain ⟨statements, there⟩ := spares.node child other
    rw [assignment?, assignment?, rewrites.node_new]
    simp only [there]
    revert expression
    cases before.node child <;> simp [Node.isExpression, Node.mapBody]
  have beside : ∀ {holder sibling}, holder ≠ host ∨ sibling ∉ [child] → later holder sibling =
      passAt later host child (later host before.size) holder sibling := fun kept =>
    (passAt_of_ne (by simpa using kept)).symm
  refine ⟨beside, fun {α give} quiet => rewrites.gathered_eq placed quiet beside fun lower => ?_, ?_⟩
  · have entered : before.size ∈ after.children host := by simp [rewrites.children_host]
    have below : after.Below before.size child := .inl (by rw [rewrites.node_new]; simp [Node.operands])
    have whole : after.gathered later give before.size =
        before.gathered (passAt later host child (later host before.size)) give child := by
      rw [next.gathered_of_bare rewrites.node_new (quiet.statement _ _) rfl, Node.operands,
        List.flatMap_singleton, lower other (.tail (.single (.inr entered)) below)]
    have chain : Relation.TransGen after.Below host (after.passed later host before.size) :=
      transGen_of_mem_pathsFrom (List.mem_append_right _ (List.mem_map_of_mem entered))
    have kept : before.passed (passAt later host child (later host before.size)) host child ≠
        before.size := spares.passed_ne other host
    -- The assignment is passed in both places or in neither.
    rw [List.flatMap_singleton]
    rw [passed, same] at chain ⊢
    rw [passed, passAt_self] at kept ⊢
    revert chain kept
    split
    · split
      · exact fun chain kept => lower kept chain
      · exact fun _ _ => whole
    · exact fun _ _ => whole
  · rintro _ listed passes target value assigns
    obtain rfl := List.mem_singleton.mp listed
    rw [passAt_self] at passes
    exact .inl ⟨passes, same.trans assigns⟩

theorem Rewrites.passes_of_settle {var : VarId} {init : Option NodeId}
    (rewrites : Rewrites host child (.declaration var init false) left [child] right before after)
    (placed : before.IsPlaced (some host)) (here : before.node child = .declaration var init true) :
    Passes host child (.declaration var init false) [child] before after later later := by
  refine ⟨fun _ => rfl, fun {α give} quiet =>
    rewrites.gathered_eq placed quiet (fun _ => rfl) fun lower => ?_, ?_⟩
  · have entered : after.Below host child := .inr (by simp [rewrites.children_host])
    rw [List.flatMap_singleton, passed_of_declaration rewrites.node_new, passed_of_declaration here,
      (rewrites.isPlaced placed).gathered_of_bare rewrites.node_new (quiet.declaration _ _ _ _) rfl,
      placed.gathered_of_bare here (quiet.declaration _ _ _ _) rfl]
    refine List.flatMap_congr fun operand used => lower (rewrites.ne_of_mem_operands placed used) ?_
    exact .tail (.single entered) (.inl (by rwa [rewrites.node_new]))
  · rintro _ listed _ target value assigns
    obtain rfl := List.mem_singleton.mp listed
    simp [assignment?, here] at assigns

theorem Rewrites.passes_of_merge {aggregate : VarId} {run : List NodeId}
    (rewrites : Rewrites host before.size (.declaration aggregate none false) left run right before after)
    (placed : before.IsPlaced (some host)) (is_run : before.IsRun aggregate run) :
    Passes host before.size (.declaration aggregate none false) run before after later later := by
  refine ⟨fun _ => rfl, fun {α give} quiet =>
    rewrites.gathered_eq placed quiet (fun _ => rfl) fun _ => ?_, ?_⟩
  · rw [passed_of_declaration rewrites.node_new,
      (rewrites.isPlaced placed).gathered_of_bare rewrites.node_new (quiet.declaration _ _ _ _) rfl]
    refine (List.flatMap_eq_nil_iff.mpr fun member listed => ?_).symm
    obtain ⟨var, pending, here, _⟩ := is_run.declares listed
    rw [passed_of_declaration here, placed.gathered_of_bare here (quiet.declaration _ _ _ _) rfl]
    rfl
  · rintro member listed _ target value assigns
    obtain ⟨var, pending, here, _⟩ := is_run.declares listed
    simp [assignment?, here] at assigns

/-- The assignment is passed whose value becomes that of a declaration. -/
theorem Rewrites.passes_of_fold {declaration next : NodeId} {var : VarId} {pending : Bool}
    {expression target value : NodeId}
    (rewrites : Rewrites host declaration (.declaration var (some value) pending) left
      [declaration, next] right before after)
    (placed : before.IsPlaced (some host))
    (folds : before.Folds declaration next var pending expression target value) :
    Passes host declaration (.declaration var (some value) pending) [declaration, next] before after
      (passAt later host next true) later := by
  have assigns : before.assignment? next = some (target, value) := by
    rw [assignment?, folds.states]
    simp only [folds.assigns]
  have beside : ∀ {holder sibling}, holder ≠ host ∨ sibling ∉ [declaration, next] →
      later holder sibling = passAt later host next true holder sibling := fun kept =>
    (passAt_of_ne (kept.imp_right fun apart same => apart (by simp [same]))).symm
  refine ⟨beside, fun {α give} quiet => rewrites.gathered_eq placed quiet beside fun lower => ?_, ?_⟩
  · have entered : after.Below host declaration := .inr (by simp [rewrites.children_host])
    have below : after.Below declaration value :=
      .inl (by rw [rewrites.node_new]; simp [Node.operands])
    have passes : before.passed (passAt later host next true) host next = value := by
      simp [passed, assigns]
    have other : value ≠ declaration := rewrites.ne_of_mem_operands placed List.mem_cons_self
    rw [passed_of_declaration rewrites.node_new, List.flatMap_cons, List.flatMap_singleton, passes,
      passed_of_declaration folds.declares,
      placed.gathered_of_bare folds.declares (quiet.declaration _ _ _ _) rfl,
      (rewrites.isPlaced placed).gathered_of_bare rewrites.node_new (quiet.declaration _ _ _ _) rfl]
    simp [Node.operands, lower other (.tail (.single entered) below)]
  · rintro _ listed passes target' value' assigned
    rcases List.mem_pair.mp listed with rfl | rfl
    · simp [assignment?, folds.declares] at assigned
    · obtain ⟨rfl, rfl⟩ := Prod.mk.inj (Option.some.inj (assigns.symm.trans assigned))
      exact .inr ⟨var, pending, folds.names, rfl⟩

theorem Rewrites.exists_passes (rewrites : Rewrites host new statement left old right before after)
    (placed : before.IsPlaced (some host)) (rule : before.Rule new statement old)
    (later : NodeId → NodeId → Bool) :
    ∃ folded, Passes host new statement old before after folded later := by
  cases rule with
  | promote expression => exact ⟨_, rewrites.passes_of_promote placed expression⟩
  | settle here => exact ⟨_, rewrites.passes_of_settle placed here⟩
  | merge is_run => exact ⟨_, rewrites.passes_of_merge placed is_run⟩
  | fold folds => exact ⟨_, rewrites.passes_of_fold placed folds⟩

end Rules

section Reaching

/-- Marks a node that owns statements. -/
def mark (id met : NodeId) (node : Node) : List Unit :=
  if met = id ∧ node.body?.isSome then [()] else []

theorem isQuiet_mark (id : NodeId) : IsQuiet (mark id) where
  holding := fun met node statements => by simp [mark]
  declaration := fun _ _ _ _ => by simp [mark, Node.body?]
  statement := fun _ _ => by simp [mark, Node.body?]
  assign := fun _ _ _ => by simp [mark, Node.body?]

theorem reaches_iff_gathered (owns : (tree.node id).body?.isSome) :
    tree.Reaches root id ↔ tree.gathered (fun _ _ => false) (mark id) root ≠ [] := by
  rw [gathered, show tree.walkPastFrom (fun _ _ => false) (tree.size + 1) root = tree.walk from
    tree.walkPast_false, Ne, List.flatMap_eq_nil_iff, ← mem_walk_iff]
  simp [mark, Option.isSome_iff_ne_none.mp owns]

/-- A body that a walk meets is met when a statement has taken the place of others. -/
theorem Rewrites.still_reaches (rewrites : Rewrites host new statement left old right before after)
    (placed : before.IsPlaced (some host)) (rule : before.Rule new statement old)
    (reaches : before.Reaches root id) (owns : (before.node id).body?.isSome) :
    after.Reaches root id := by
  obtain ⟨folded, passes⟩ := rewrites.exists_passes placed rule fun _ _ => false
  have same : before.gathered folded (mark id) root = before.gathered (fun _ _ => false) (mark id) root := by
    refine placed.gathered_eq_of_references (isQuiet_mark id) (fun _ _ => by simp [mark, Node.body?])
      (fun {holder child target value} _ held passed assigns => ?_) .refl
    by_cases kept : holder ≠ host ∨ child ∉ old
    · simp [← passes.beside kept] at passed
    obtain ⟨rfl, taken⟩ : holder = host ∧ child ∈ old := by simpa [not_or] using kept
    rcases passes.target child taken passed assigns with ⟨idle, _⟩ | ⟨var, _, names, _⟩
    · cases idle
    · exact ⟨var, names⟩
  rw [reaches_iff_gathered ((rewrites.body?_isSome_iff id).mpr owns),
    passes.gathered (isQuiet_mark id) (rewrites.root_ne_new placed), same]
  exact (reaches_iff_gathered owns).mp reaches

/-- The root is not inside a body that a walk meets. -/
theorem Absorbs.root_ne_inner (absorbs : Absorbs host inner before after)
    (placed : before.IsPlaced (some host)) (met : before.Reaches root host) : root ≠ inner := by
  rintro rfl
  exact placed.acyclic host (.head' (.inr absorbs.listed) met)

/-- A body that a walk meets is met when the statements of a block inside it have been taken over. -/
theorem Absorbs.still_reaches (absorbs : Absorbs host inner before after)
    (placed : before.IsPlaced (some host)) (met : before.Reaches root host) (other : id ≠ inner)
    (reaches : before.Reaches root id) (owns : (before.node id).body?.isSome) :
    after.Reaches root id := by
  rw [reaches_iff_gathered ((absorbs.body?_isSome_iff id).mpr owns),
    absorbs.gathered_eq placed (isQuiet_mark id) (by simp [mark, Ne.symm other])
      (absorbs.root_ne_inner placed met)]
  exact (reaches_iff_gathered owns).mp reaches

/-- After a step a body is met still, or it is the block that was absorbed. -/
theorem Step.still_reaches (step : Step host before after) (placed : before.IsPlaced (some host))
    (met : before.Reaches root host) (reaches : before.Reaches root id)
    (owns : (before.node id).body?.isSome) : after.Reaches root id ∨ id ≠ host ∧ after.IsTidy id := by
  cases step with
  | @absorb inner absorbs =>
      by_cases same : id = inner
      · subst same
        exact .inr ⟨absorbs.inner_ne_host placed, absorbs.isTidy_inner placed⟩
      · exact .inl (absorbs.still_reaches placed met same reaches owns)
  | rewrite rewrites rule => exact .inl (rewrites.still_reaches placed rule reaches owns)

end Reaching

section Applications

/-- A rule is applied to a body that a walk meets. -/
def Applies (before after : ScriptTree) : Prop :=
  ∃ host, before.IsPlaced (some host) ∧ before.Reaches root host ∧ Step host before after

/-- The steps at a body that a walk meets are applied there, and it is met in the end. -/
theorem Steps.applies (steps : Steps host before after) (placed : before.IsPlaced (some host))
    (met : before.Reaches root host) (owns : (before.node host).body?.isSome) :
    Relation.ReflTransGen Applies before after ∧ after.Reaches root host := by
  induction steps with
  | refl => exact ⟨.refl, met⟩
  | tail former step induction =>
      have next := Steps.isPlaced former placed
      obtain ⟨chain, met⟩ := induction
      have owned := (Steps.body?_isSome_iff former host).mpr owns
      refine ⟨chain.tail ⟨host, next, met, step⟩, ?_⟩
      exact (step.still_reaches next met met owned).resolve_right fun both => both.1 rfl

/-- Steps at one body leave other bodies to a walk, or tidy. -/
theorem Steps.reaches_or_isTidy (steps : Steps host before after)
    (placed : before.IsPlaced (some host)) (met : before.Reaches root host)
    (owner : (before.node host).body?.isSome) (owns : (before.node id).body?.isSome)
    (ready : before.Reaches root id ∨ before.IsTidy id) : after.Reaches root id ∨ after.IsTidy id := by
  induction steps with
  | refl => exact ready
  | tail former step induction =>
      have next := Steps.isPlaced former placed
      have met := (Steps.applies former placed met owner).2
      have owned := (Steps.body?_isSome_iff former id).mpr owns
      rcases induction with reaches | tidy
      · exact (step.still_reaches next met reaches owned).imp_right And.right
      · by_cases same : id = host
        · subst same
          exact (step.still_reaches next met met owned).imp_right And.right
        · exact .inr (step.isTidy next same owned tidy)

/-- Cleaning bodies that a walk meets, or that are tidy, is a chain of applications. -/
theorem cleanAll_applies (placed : tree.IsPlaced none) {nodes : List NodeId}
    (ready : ∀ node ∈ nodes, (tree.node node).body?.isSome →
      tree.Reaches root node ∨ tree.IsTidy node) :
    Relation.ReflTransGen Applies tree (cleanAll nodes tree).1 := by
  induction nodes generalizing tree with
  | nil => exact .refl
  | cons node nodes induction =>
      show Relation.ReflTransGen Applies tree (cleanAll nodes (cleanBody node tree).1).1
      have behind : ∀ other ∈ nodes, (tree.node other).body?.isSome →
          tree.Reaches root other ∨ tree.IsTidy other :=
        fun other listed => ready other (List.mem_cons_of_mem _ listed)
      by_cases owns : (tree.node node).body?.isSome
      swap
      · rw [cleanBody, if_neg owns]
        exact induction placed behind
      rcases ready node List.mem_cons_self owns with met | tidy
      · have entered := placed.some node
        obtain ⟨steps, promoted, _⟩ := cleanBody_spec entered owns
        refine (steps.applies entered met owns).1.trans
          (induction ((Steps.isPlaced steps entered).of_promoted promoted) fun other listed owned => ?_)
        have owner := (Steps.body?_isSome_iff steps other).mp owned
        exact Steps.reaches_or_isTidy steps entered met owns owner (behind other listed owner)
      · rw [tidy.cleanBody_eq_self (placed.some node)]
        exact induction placed behind

/-- A cleanup applies its rules to bodies that a walk meets at the time. -/
theorem IsPlaced.cleanup_applies (placed : tree.IsPlaced none) :
    Relation.ReflTransGen Applies tree tree.cleanup.1 :=
  cleanAll_applies placed fun _ listed _ => .inl (mem_walk_iff.mp listed)

end Applications

end ScriptTree
end NwScript
