import NwScript.Proofs.GatheredSteps

/-!
# Cleanup keeps every evaluation

A cleaned tree calls, jumps, branches and reads what the tree did, in the same order: of all that a walk
tells, only the targets of assignments are lost that a declaration has taken over as its initial value.
-/

namespace NwScript

namespace Node

/-- A call, a change by one, a return, a jump or a control statement. -/
def isActive : Node → Bool
  | action _ _ _ | call _ _ _ | step _ _ _ | ret _ | leave | next | branch _ _ _ | otherwise _
  | whileLoop _ _ | doLoop _ _ | switch _ _ | case _ _ => true
  | _ => false

/-- A constant. -/
def isConstant : Node → Bool
  | literal _ => true
  | _ => false

/-- A constant or a use of a variable. -/
def isTerm : Node → Bool
  | literal _ | reference _ => true
  | _ => false

end Node

namespace ScriptTree

variable {before after tree : ScriptTree} {host inner new child id : NodeId} {statement : Node}
  {left old right : List NodeId} {folded later : NodeId → NodeId → Bool} {var : VarId} {value : NodeId}

/-- Of the nodes that a walk meets, those of a kind, each without the statements that it holds. -/
def encounters (tree : ScriptTree) (kind : Node → Bool) (met : List NodeId) : List (NodeId × Node) :=
  (met.filter fun id => kind (tree.node id)).map fun id => (id, (tree.node id).holding [])

section Telling

/-- Tells the nodes of a kind. -/
def tell (kind : Node → Bool) (id : NodeId) (node : Node) : List (NodeId × Node) :=
  if kind node then [(id, node.holding [])] else []

theorem encounters_walkPast (tree : ScriptTree) (kind : Node → Bool) (folded : NodeId → NodeId → Bool) :
    tree.encounters kind (tree.walkPast folded) = tree.gathered folded (tell kind) root := by
  have one_by_one : ∀ met : List NodeId, tree.encounters kind met =
      met.flatMap fun id => tell kind id (tree.node id) := by
    intro met
    induction met with
    | nil => rfl
    | cons id met induction =>
        rw [List.flatMap_cons, ← induction, encounters, encounters, tell, List.filter_cons]
        by_cases told : kind (tree.node id) <;> simp [told]
  exact one_by_one _

theorem isQuiet_tell {kind : Node → Bool}
    (holding : ∀ node statements, kind (node.holding statements) = kind node)
    (declaration : ∀ var init pending, kind (.declaration var init pending) = false)
    (stated : ∀ value, kind (.statement value) = false)
    (assign : ∀ target value, kind (.assign target value) = false) : IsQuiet (tell kind) where
  holding := fun id node statements => by simp [tell, holding]
  declaration := fun id var init pending => by simp [tell, declaration]
  statement := fun id value => by simp [tell, stated]
  assign := fun id target value => by simp [tell, assign]

theorem isQuiet_active : IsQuiet (tell Node.isActive) :=
  isQuiet_tell (fun node _ => by cases node <;> rfl) (fun _ _ _ => rfl) (fun _ => rfl) fun _ _ => rfl

theorem isQuiet_constant : IsQuiet (tell Node.isConstant) :=
  isQuiet_tell (fun node _ => by cases node <;> rfl) (fun _ _ _ => rfl) (fun _ => rfl) fun _ _ => rfl

theorem isQuiet_term : IsQuiet (tell Node.isTerm) :=
  isQuiet_tell (fun node _ => by cases node <;> rfl) (fun _ _ _ => rfl) (fun _ => rfl) fun _ _ => rfl

end Telling

section Initializing

/-- In a body that a walk meets a declaration gives a variable an initial value. -/
def Initializes (tree : ScriptTree) (var : VarId) (value : NodeId) : Prop :=
  ∃ body declaration pending, tree.Reaches root body ∧ declaration ∈ tree.children body ∧
    tree.node declaration = .declaration var (some value) pending

theorem Initializes.exists_met (initializes : tree.Initializes var value) :
    ∃ declaration ∈ tree.walk, ∃ pending,
      tree.node declaration = .declaration var (some value) pending := by
  obtain ⟨body, declaration, pending, met, held, here⟩ := initializes
  exact ⟨declaration, mem_walk_iff.mpr (met.tail (.inr held)), pending, here⟩

/-- A body that takes over the statements of a block takes over declarations. -/
theorem Absorbs.initializes (absorbs : Absorbs host inner before after)
    (placed : before.IsPlaced (some host)) (met : before.Reaches root host)
    (initializes : before.Initializes var value) : after.Initializes var value := by
  obtain ⟨body, declaration, pending, reaches, held, here⟩ := initializes
  have still : after.node declaration = .declaration var (some value) pending := by
    obtain ⟨statements, same⟩ := absorbs.exists_node_eq declaration
    rw [same, here]
    rfl
  have owns := Node.owns_of_mem_statements absorbs.listed
  have meets := absorbs.still_reaches placed met (Ne.symm (absorbs.inner_ne_host placed)) met owns
  by_cases block : body = inner
  · subst block
    exact ⟨host, declaration, pending, meets, absorbs.children_host ▸ held, still⟩
  by_cases outer : body = host
  · subst outer
    rw [absorbs.held, List.mem_singleton] at held
    have block := absorbs.block
    rw [← held, here] at block
    cases block
  · have reached := absorbs.still_reaches placed met block reaches (Node.owns_of_mem_statements held)
    exact ⟨body, declaration, pending, reached, absorbs.children_of_ne outer block ▸ held, still⟩

/-- No rule takes a declaration away that has an initial value. -/
theorem Rewrites.initializes (rewrites : Rewrites host new statement left old right before after)
    (placed : before.IsPlaced (some host)) (rule : before.Rule new statement old)
    (initializes : before.Initializes var value) : after.Initializes var value := by
  obtain ⟨body, declaration, pending, reaches, held, here⟩ := initializes
  have reached := rewrites.still_reaches placed rule reaches (Node.owns_of_mem_statements held)
  by_cases kept : body ≠ host ∨ declaration ∉ old
  · obtain ⟨other, there⟩ := rewrites.stays placed held kept
    obtain ⟨statements, same⟩ := rewrites.exists_node_eq other
    exact ⟨body, declaration, pending, reached, there, by rw [same, here]; rfl⟩
  · obtain ⟨rfl, taken⟩ : body = host ∧ declaration ∈ old := by simpa [not_or] using kept
    cases rule with
    | promote expression =>
        rw [← List.mem_singleton.mp taken, here] at expression
        cases expression
    | settle former =>
        obtain rfl := List.mem_singleton.mp taken
        obtain ⟨rfl, rfl, -⟩ := Node.declaration.inj (here.symm.trans former)
        exact ⟨body, _, false, reached, by simp [rewrites.children_host], rewrites.node_new⟩
    | merge is_run =>
        obtain ⟨_, _, bare, _⟩ := is_run.declares taken
        cases bare.symm.trans here
    | fold folds =>
        rcases List.mem_pair.mp taken with rfl | rfl
        · cases folds.declares.symm.trans here
        · cases folds.states.symm.trans here

theorem Applies.initializes (applies : Applies before after)
    (initializes : before.Initializes var value) : after.Initializes var value := by
  obtain ⟨host, placed, met, step⟩ := applies
  cases step with
  | absorb absorbs => exact absorbs.initializes placed met initializes
  | rewrite rewrites rule => exact rewrites.initializes placed rule initializes

theorem Initializes.persists (initializes : before.Initializes var value)
    (chain : Relation.ReflTransGen Applies before after) : after.Initializes var value := by
  induction chain with
  | refl => exact initializes
  | tail _ applies induction => exact applies.initializes induction

end Initializing

section Folding

/-- A later tree tells what a walk of an earlier one tells that passes the folded assignments. -/
structure Retold (tree final : ScriptTree) (passing : NodeId → NodeId → Bool) : Prop where
  /-- An assignment that is passed is to a variable that the later tree declares with the value. -/
  folded : ∀ {body child target value}, tree.Reaches root body → child ∈ tree.children body →
    passing body child → tree.assignment? child = some (target, value) →
      ∃ var, tree.node target = .reference var ∧ final.Initializes var value
  /-- The same is told. -/
  gathered : ∀ {α : Type} {give : NodeId → Node → List α}, IsQuiet give →
    (∀ id body, give id (.block body) = []) →
      final.gathered (fun _ _ => false) give root = tree.gathered passing give root

theorem Spares.names_eq (spares : Spares new before after) {target : NodeId}
    (assigns : before.assignment? child = some (target, value))
    (names : after.node target = .reference var) : before.node target = .reference var := by
  obtain ⟨user, here, _⟩ := exists_user_of_assignment? assigns
  have used : target ∈ (before.node user).operands := by
    rw [here]
    exact List.mem_cons_self
  exact spares.node_eq (spares.ne_of_operand used) names rfl

theorem Absorbs.retold (absorbs : Absorbs host inner before after)
    (placed : before.IsPlaced (some host)) (met : before.Reaches root host) {final : ScriptTree}
    (retold : Retold after final later) :
    Retold before final (passAround later host inner) := by
  have spares := absorbs.spares placed
  have same : ∀ {holder child}, child ∈ before.children holder →
      after.assignment? child = before.assignment? child := fun held =>
    spares.assignment?_eq (Nat.ne_of_lt (placed.child_inside held))
  refine ⟨fun {body child target value} reaches held passed assigns => ?_,
    fun {α give} quiet blocks => ?_⟩
  · rw [passAround] at passed
    have moved : ∃ holder, after.Reaches root holder ∧ child ∈ after.children holder ∧
        later holder child := by
      have owns := Node.owns_of_mem_statements held
      by_cases block : body = inner
      · subst block
        rw [if_pos rfl] at passed
        have other := Ne.symm (absorbs.inner_ne_host placed)
        exact ⟨host, absorbs.still_reaches placed met other met
          (Node.owns_of_mem_statements absorbs.listed), absorbs.children_host ▸ held, passed⟩
      rw [if_neg block] at passed
      refine ⟨body, absorbs.still_reaches placed met block reaches owns, ?_, passed⟩
      rwa [absorbs.children_of_ne ?_ block]
      rintro rfl
      rw [absorbs.held, List.mem_singleton] at held
      rw [held, assignment?_of_isBlock absorbs.block] at assigns
      cases assigns
    obtain ⟨holder, reached, there, passes⟩ := moved
    obtain ⟨var, names, initializes⟩ := retold.folded reached there passes ((same held).trans assigns)
    exact ⟨var, spares.names_eq assigns names, initializes⟩
  · have silent : give inner (before.node inner) = [] := by
      have block := absorbs.block
      cases kind : before.node inner <;> simp_all [Node.isBlock]
    rw [retold.gathered quiet blocks,
      absorbs.gathered_eq placed quiet silent (absorbs.root_ne_inner placed met)]

theorem Rewrites.retold (rewrites : Rewrites host new statement left old right before after)
    (placed : before.IsPlaced (some host)) (rule : before.Rule new statement old)
    (met : before.Reaches root host) {final : ScriptTree}
    (chain : Relation.ReflTransGen Applies after final) (retold : Retold after final later) :
    ∃ folded, Retold before final folded := by
  have spares := rewrites.spares placed
  have entered := rewrites.still_reaches placed rule met rewrites.owns
  obtain ⟨folded, passes⟩ := rewrites.exists_passes placed rule later
  refine ⟨folded, fun {body child target value} reaches held passed assigns => ?_,
    fun {α give} quiet blocks => ?_⟩
  · have found : (∃ holder place, after.Reaches root holder ∧ place ∈ after.children holder ∧
        later holder place ∧ after.assignment? place = some (target, value)) ∨
          ∃ var pending, before.node target = .reference var ∧
            statement = .declaration var (some value) pending := by
      by_cases kept : body ≠ host ∨ child ∉ old
      · obtain ⟨other, there⟩ := rewrites.stays placed held kept
        have reached := rewrites.still_reaches placed rule reaches (Node.owns_of_mem_statements held)
        exact .inl ⟨body, child, reached, there, passes.beside kept ▸ passed,
          (spares.assignment?_eq other).trans assigns⟩
      obtain ⟨rfl, taken⟩ : body = host ∧ child ∈ old := by simpa [not_or] using kept
      refine (passes.target child taken passed assigns).imp_left fun ⟨passed, same⟩ => ?_
      exact ⟨body, new, entered, by simp [rewrites.children_host], passed, same⟩
    rcases found with ⟨holder, place, reached, there, passes, same⟩ | ⟨var, pending, names, declares⟩
    · obtain ⟨var, names, initializes⟩ := retold.folded reached there passes same
      exact ⟨var, spares.names_eq assigns names, initializes⟩
    · have initializes : after.Initializes var value :=
        ⟨host, new, pending, entered, by simp [rewrites.children_host], declares ▸ rewrites.node_new⟩
      exact ⟨var, names, initializes.persists chain⟩
  · rw [retold.gathered quiet blocks, passes.gathered quiet (rewrites.root_ne_new placed)]

/-- Whatever rules have been applied, an earlier tree passing folded assignments tells the same.  Which
places are passed is found backwards from the last tree, which passes none. -/
theorem exists_retold {final : ScriptTree} (chain : Relation.ReflTransGen Applies tree final) :
    ∃ folded, Retold tree final folded := by
  induction chain using Relation.ReflTransGen.head_induction_on with
  | refl =>
      exact ⟨fun _ _ => false, fun _ _ passed => absurd passed Bool.false_ne_true, fun _ _ => rfl⟩
  | head applies chain induction =>
      obtain ⟨later, retold⟩ := induction
      obtain ⟨host, placed, met, step⟩ := applies
      cases step with
      | absorb absorbs => exact ⟨_, absorbs.retold placed met retold⟩
      | rewrite rewrites rule => exact rewrites.retold placed rule met chain retold

end Folding

section Cleaning

/-- A cleaned tree calls, jumps, branches and reads in the order of the tree: a walk meets the same
calls, changes by one, returns, jumps and control statements, the same constants, and the same constants
and uses of variables but for the targets of folded assignments.  These stand in bodies, each assigns to
a variable as a whole, and a declaration of that variable now has the value. -/
theorem cleanup_encounters (anchored : tree.IsAnchored)
    (once : ∀ holder, (tree.children holder).Nodup)
    (apart : ∀ {user operand holder : NodeId}, operand ∈ (tree.node user).operands →
      operand ∈ tree.children holder → (tree.node operand).isExpression) :
    tree.cleanup.1.encounters Node.isActive tree.cleanup.1.walk =
        tree.encounters Node.isActive tree.walk ∧
      tree.cleanup.1.encounters Node.isConstant tree.cleanup.1.walk =
        tree.encounters Node.isConstant tree.walk ∧
      ∃ folded : NodeId → NodeId → Bool,
        (∀ body child, folded body child → body ∈ tree.walk ∧ child ∈ tree.children body ∧
          ∃ target value var, tree.assignment? child = some (target, value) ∧
            tree.node target = .reference var ∧ ∃ declaration ∈ tree.cleanup.1.walk, ∃ pending,
              tree.cleanup.1.node declaration = .declaration var (some value) pending) ∧
        tree.cleanup.1.encounters Node.isTerm tree.cleanup.1.walk =
          tree.encounters Node.isTerm (tree.walkPast folded) := by
  have placed := anchored.isPlaced once apart
  obtain ⟨passing, retold⟩ := exists_retold placed.cleanup_applies
  have told : ∀ {kind}, IsQuiet (tell kind) → (∀ body, kind (.block body) = false) →
      tree.cleanup.1.encounters kind tree.cleanup.1.walk =
        tree.encounters kind (tree.walkPast passing) := by
    intro kind quiet blocks
    rw [← walkPast_false tree.cleanup.1, encounters_walkPast, encounters_walkPast]
    exact retold.gathered quiet fun _ _ => by simp [tell, blocks]
  have unread : ∀ {kind}, IsQuiet (tell kind) → (∀ var, kind (.reference var) = false) →
      tree.encounters kind (tree.walkPast passing) = tree.encounters kind tree.walk := by
    intro kind quiet references
    rw [← walkPast_false tree, encounters_walkPast, encounters_walkPast]
    refine placed.gathered_eq_of_references quiet (fun _ _ => by simp [tell, references])
      (fun met held passed assigns => ?_) .refl
    obtain ⟨var, names, _⟩ := retold.folded met held passed assigns
    exact ⟨var, names⟩
  refine ⟨(told isQuiet_active fun _ => rfl).trans (unread isQuiet_active fun _ => rfl),
    (told isQuiet_constant fun _ => rfl).trans (unread isQuiet_constant fun _ => rfl), ?_⟩
  classical
  refine ⟨fun body child => passing body child && decide (tree.Reaches root body ∧
    child ∈ tree.children body ∧ (tree.assignment? child).isSome), fun body child passed => ?_, ?_⟩
  · obtain ⟨passed, met, held, some_assignment⟩ : passing body child ∧ tree.Reaches root body ∧
        child ∈ tree.children body ∧ (tree.assignment? child).isSome := by simpa using passed
    obtain ⟨⟨target, value⟩, assigns⟩ := Option.isSome_iff_exists.mp some_assignment
    obtain ⟨var, names, initializes⟩ := retold.folded met held passed assigns
    exact ⟨mem_walk_iff.mpr met, held, target, value, var, assigns, names, initializes.exists_met⟩
  · rw [told isQuiet_term fun _ => rfl, walkPast_congr fun met held assigns => ?_]
    simp [met, held, assigns]

end Cleaning

section Samples

/-- A block inside the body declares a variable, assigns a random number to it and prints it.  The
assignment stands there as an expression. -/
def printed : ScriptTree :=
  sample
    [.block { children := [1], start := 0, limit := 40 },
      .block { children := [2, 6, 9], start := 0, limit := 40 }, .declaration 0 none false,
      .reference 0, .literal (.int 6), .action 8 "Random" [4], .assign 3 5, .reference 0,
      .action 4 "PrintInteger" [7], .statement 8]
    [none, some 0, some 1, some 6, some 5, some 6, some 1, some 8, some 9, some 1]
    [{ kind := .localVar, type := .int }]

/-- The block is absorbed, the assignment becomes a statement and is folded.  Both calls stay, and of the
constant and the uses of the variable only the assigned use goes. -/
theorem cleanup_encounters_printed : printed.cleanup.2 = 3 ∧
    (printed.cleanup.1.encounters Node.isActive printed.cleanup.1.walk).map Prod.fst = [5, 8] ∧
      (printed.encounters Node.isTerm printed.walk).map Prod.fst = [3, 4, 7] ∧
        ∃ folded, (printed.encounters Node.isTerm (printed.walkPast folded)).map Prod.fst = [4, 7] := by
  have linked : printed.IsLinked :=
    isLinked_of_rank ([9, 8, 0, 0, 0, 1, 2, 0, 1, 2].getD · 0) (by decide) (by decide) (by decide)
      (by decide) (by decide)
  obtain ⟨active, _, folded, _, terms⟩ := cleanup_encounters linked.isAnchored
    (nodup_children_of_lt (by decide)) (isExpression_of_lt (by decide))
  refine ⟨by decide +kernel, by rw [active]; decide, by decide, folded, ?_⟩
  rw [← terms]
  decide +kernel

/-- A statement that calls an action stands twice in a block. -/
def repeated : ScriptTree :=
  sample
    [.block { children := [1], start := 0, limit := 40 },
      .block { children := [3, 3], start := 20, limit := 30 }, .action 1 "Beep" [], .statement 2]
    [none, some 0, some 3, some 1] []

/-- A block that calls an action is the body of a branch and an argument in its condition. -/
def borrowed : ScriptTree :=
  sample
    [.block { children := [5], start := 0, limit := 40 },
      .block { children := [3], start := 20, limit := 30 }, .action 1 "Beep" [], .statement 2,
      .action 2 "Test" [1], .branch (some 4) { children := [1], start := 20, limit := 30 } none]
    [none, some 5, some 3, some 1, some 5, some 0] []

/-- A call is met once less after a cleanup if its statement stands twice in a body, or if a block that
is also an operand loses it to the body around. -/
theorem cleanup_encounters_ne :
    (repeated.IsAnchored ∧ repeated.cleanup.1.encounters Node.isActive repeated.cleanup.1.walk ≠
      repeated.encounters Node.isActive repeated.walk) ∧
    borrowed.IsAnchored ∧ borrowed.cleanup.1.encounters Node.isActive borrowed.cleanup.1.walk ≠
      borrowed.encounters Node.isActive borrowed.walk := by
  refine ⟨⟨(isLinked_of_rank ([3, 2, 0, 1].getD · 0) ?_ ?_ ?_ ?_ ?_).isAnchored, by decide +kernel⟩,
    (isLinked_of_rank ([5, 2, 0, 1, 3, 4].getD · 0) ?_ ?_ ?_ ?_ ?_).isAnchored, by decide +kernel⟩ <;>
    decide

end Samples

end ScriptTree
end NwScript
