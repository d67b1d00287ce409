import NwScript.Proofs.CleanupTwice
import NwScript.Proofs.CommandStatements
import NwScript.Proofs.FinishedTrees

/-!
# Counts of statements

In a tree in which operands and child statements are apart and every statement has one place, a walk
meets each statement that hangs below the body of the subroutine exactly once.  Trees that differ in
names, arguments or marks of declarations only have the same statements in the same places.
-/

namespace NwScript
namespace ScriptTree

/-- Operands are expressions, which own no statements, and child statements are no expressions. -/
structure IsStratified (tree : ScriptTree) : Prop where
  /-- Operands are expressions. -/
  operands : ∀ {user operand : NodeId}, operand ∈ (tree.node user).operands →
    (tree.node operand).isExpression
  /-- Child statements are no expressions. -/
  children : ∀ {holder child : NodeId}, child ∈ tree.children holder →
    (tree.node child).isExpression = false
  /-- Expressions own no statements. -/
  bare : ∀ {id : NodeId}, (tree.node id).isExpression → tree.children id = []

/-- In addition child statements have one place, and the body of the subroutine has none. -/
structure IsProper (tree : ScriptTree) : Prop extends tree.IsStratified where
  /-- Child statements have one place. -/
  placed : tree.IsPlaced none
  /-- The body of the subroutine stands nowhere. -/
  top : ∀ holder, root ∉ tree.children holder

variable {catalog : ActionCatalog} {tree before middle after : ScriptTree} {host new id : NodeId}
  {action : Nat}

section Chains

variable (stratified : tree.IsStratified)

include stratified

/-- Below expressions there are expressions only. -/
theorem IsStratified.isExpression_of_reaches {upper lower : NodeId}
    (expression : (tree.node upper).isExpression) (reaches : tree.Reaches upper lower) :
    (tree.node lower).isExpression := by
  induction reaches with
  | refl => exact expression
  | tail _ below induction =>
      rcases below with used | held
      · exact stratified.operands used
      · rw [stratified.bare induction] at held
        exact absurd held List.not_mem_nil

/-- Statements are below statements. -/
theorem IsStratified.holds_of_below {upper lower : NodeId} (below : tree.Below upper lower)
    (statement : (tree.node lower).isExpression = false) :
    tree.Holds upper lower ∧ (tree.node upper).isExpression = false := by
  rcases below with used | held
  · rw [stratified.operands used] at statement
    cases statement
  · refine ⟨held, ?_⟩
    by_contra expression
    rw [Bool.not_eq_false] at expression
    rw [stratified.bare expression] at held
    exact absurd held List.not_mem_nil

/-- Statements are reached through statements. -/
theorem IsStratified.holds_of_reaches {upper lower : NodeId} (reaches : tree.Reaches upper lower)
    (statement : (tree.node lower).isExpression = false) :
    Relation.ReflTransGen tree.Holds upper lower := by
  induction reaches with
  | refl => exact .refl
  | tail _ below induction =>
      obtain ⟨held, above⟩ := stratified.holds_of_below below statement
      exact (induction above).tail held

/-- Expressions that come behind their operands stand below none of these. -/
theorem IsStratified.lt_of_chain {upper lower : NodeId}
    (ordered : ∀ {id operand : NodeId}, (tree.node id).isExpression →
      operand ∈ (tree.node id).operands → operand < id)
    (expression : (tree.node upper).isExpression)
    (chain : Relation.TransGen tree.Below upper lower) : lower < upper := by
  have down : ∀ {one other}, (tree.node one).isExpression → tree.Below one other → other < one := by
    intro one other expression below
    rcases below with used | held
    · exact ordered expression used
    · rw [stratified.bare expression] at held
      exact absurd held List.not_mem_nil
  induction chain with
  | single below => exact down expression below
  | tail former below induction =>
      have reached := stratified.isExpression_of_reaches expression former.to_reflTransGen
      exact Nat.lt_trans (down reached below) induction

end Chains

section Forests

/-- In a sound forest operands and child statements are apart. -/
theorem IsForest.isStratified (forest : tree.IsForest) (sound : tree.IsSound catalog) :
    tree.IsStratified where
  operands := fun used => (sound.operands used).elim (fun value => value.expression)
    fun stated => stated.2.1
  children := fun held => (sound.children held).2
  bare := by
    intro id expression
    have open_body := forest.plain id
    rw [children_eq]
    refine Node.statements_eq_nil ?_
    revert expression open_body
    cases tree.node id <;> simp [Node.isExpression, Node.isClosure, Node.body?]

theorem IsForest.isProper (forest : tree.IsForest) (sound : tree.IsSound catalog) :
    tree.IsProper := by
  have stratified := forest.isStratified sound
  refine { stratified with placed := ?_, top := forest.top }
  exact
    { sized := sound.sized
      rooted := sound.rooted
      inside := fun below => by
        rcases below with used | held
        · exact (sound.operands used).elim (fun value => value.inside) fun stated => stated.1
        · exact (sound.children held).1
      linked := fun held => .inl (forest.linked held)
      once := forest.once
      acyclic := by
        intro id circle
        cases kind : (tree.node id).isExpression with
        | true =>
            exact Nat.lt_irrefl id (stratified.lt_of_chain forest.ordered kind circle)
        | false =>
            obtain ⟨above, reaches, last⟩ := Relation.TransGen.tail'_iff.mp circle
            obtain ⟨held, statement⟩ := stratified.holds_of_below last kind
            exact forest.acyclic id (.tail' (stratified.holds_of_reaches reaches statement) held)
      apart := fun used _ => stratified.operands used }

end Forests

section Walks

namespace IsProper

variable (proper : tree.IsProper)

include proper

theorem holder_unique {first second child : NodeId} (here : child ∈ tree.children first)
    (there : child ∈ tree.children second) : first = second :=
  Option.some.inj ((proper.placed.home here (proper.children here)).symm.trans
    (proper.placed.home there (proper.children there)))

/-- Nothing hangs below two statements of one body. -/
theorem eq_of_holds {holder first second last : NodeId} (here : first ∈ tree.children holder)
    (there : second ∈ tree.children holder) (left : Relation.ReflTransGen tree.Holds first last)
    (right : Relation.ReflTransGen tree.Holds second last) : first = second := by
  have unique : Relator.RightUnique (Function.swap tree.Holds) :=
    fun _ _ _ one other => proper.holder_unique one other
  have apart : ∀ {one other}, one ∈ tree.children holder → other ∈ tree.children holder →
      Relation.ReflTransGen tree.Holds one other → one = other := by
    intro one other held beside chain
    rcases chain.cases_tail with same | ⟨middle, up, last⟩
    · exact same.symm
    · obtain rfl := proper.holder_unique last beside
      have circle : Relation.TransGen tree.Holds middle middle := .head' held up
      exact absurd (Relation.TransGen.mono (fun _ _ held => Or.inr held) _ _ circle)
        (proper.placed.acyclic middle)
  rcases Relation.ReflTransGen.total_of_right_unique unique
    (Relation.reflTransGen_swap.mpr left) (Relation.reflTransGen_swap.mpr right) with down | up
  · exact (apart there here (Relation.reflTransGen_swap.mp down)).symm
  · exact apart here there (Relation.reflTransGen_swap.mp up)

/-- A walk meets no statement twice. -/
theorem nodup_filter_walkFrom {test : NodeId → Bool}
    (statements : ∀ {id}, test id → (tree.node id).isExpression = false) (depth : Nat) (id : NodeId) :
    ((tree.walkFrom depth id).filter test).Nodup := by
  induction depth generalizing id with
  | zero => exact List.nodup_nil
  | succ depth induction =>
      have operands : (tree.node id).operands.flatMap
          (fun operand => (tree.walkFrom depth operand).filter test) = [] := by
        refine List.flatMap_eq_nil_iff.mpr fun operand used => List.filter_eq_nil_iff.mpr ?_
        intro met listed tested
        have expression := proper.isExpression_of_reaches (proper.operands used)
          (reaches_of_mem_walkFrom listed)
        rw [statements tested] at expression
        cases expression
      have deeper : ((tree.children id).flatMap
          fun child => (tree.walkFrom depth child).filter test).Nodup := by
        refine List.nodup_flatMap.mpr ⟨fun child _ => induction child, ?_⟩
        refine List.Pairwise.imp_of_mem ?_ (proper.placed.once id)
        intro first second here there different met left right
        obtain ⟨left, tested⟩ := List.mem_filter.mp left
        obtain ⟨right, _⟩ := List.mem_filter.mp right
        have statement := statements tested
        exact different (proper.eq_of_holds here there
          (proper.holds_of_reaches (reaches_of_mem_walkFrom left) statement)
          (proper.holds_of_reaches (reaches_of_mem_walkFrom right) statement))
      have below : (((tree.node id).operands ++ tree.children id).flatMap (tree.walkFrom depth)).filter
          test = (tree.children id).flatMap fun child => (tree.walkFrom depth child).filter test := by
        rw [List.filter_flatMap, List.flatMap_append, operands, List.nil_append]
      rw [walkFrom, List.filter_cons, below]
      split
      · refine List.nodup_cons.mpr ⟨fun again => ?_, deeper⟩
        obtain ⟨child, held, listed⟩ := List.mem_flatMap.mp again
        exact proper.placed.acyclic id
          (.head' (.inr held) (reaches_of_mem_walkFrom (List.mem_filter.mp listed).1))
      · exact deeper

/-- A walk meets the statements that hang below the body of the subroutine. -/
theorem mem_filter_walk {test : NodeId → Bool}
    (statements : ∀ {id}, test id → (tree.node id).isExpression = false) :
    id ∈ tree.walk.filter test ↔ tree.Hangs id ∧ test id := by
  rw [List.mem_filter, mem_walk_iff]
  constructor
  · rintro ⟨reaches, tested⟩
    exact ⟨proper.holds_of_reaches reaches (statements tested), tested⟩
  · rintro ⟨hangs, tested⟩
    exact ⟨Relation.ReflTransGen.mono (fun _ _ held => Or.inr held) _ _ hangs, tested⟩

end IsProper
end Walks

section Counts

/-- The statements that a walk meets and that call an action. -/
def statedCalls (tree : ScriptTree) (action : Nat) : List NodeId :=
  tree.walk.filter (tree.calls action)

theorem isExpression_of_calls (called : tree.calls action id) :
    (tree.node id).isExpression = false := by
  obtain ⟨value, here, _⟩ := calls_iff.mp called
  rw [here]
  rfl

/-- A statement that calls an action is met if it hangs below the body of the subroutine. -/
theorem IsProper.mem_statedCalls (proper : tree.IsProper) :
    id ∈ tree.statedCalls action ↔ tree.Hangs id ∧ tree.calls action id :=
  proper.mem_filter_walk isExpression_of_calls

theorem IsProper.nodup_statedCalls (proper : tree.IsProper) :
    (tree.statedCalls action).Nodup :=
  proper.nodup_filter_walkFrom isExpression_of_calls _ _

/-- Where all statements that call an action hang, a walk meets all that there are. -/
theorem IsProper.length_statedCalls (proper : tree.IsProper)
    (hanging : ∀ {id}, tree.calls action id → tree.Hangs id) :
    (tree.statedCalls action).length = tree.callCount action := by
  have same : (tree.statedCalls action).Perm ((List.range tree.size).filter (tree.calls action)) := by
    refine (List.perm_ext_iff_of_nodup proper.nodup_statedCalls
      (List.nodup_range.filter _)).mpr fun id => ?_
    rw [proper.mem_statedCalls, List.mem_filter, List.mem_range]
    constructor
    · rintro ⟨_, called⟩
      refine ⟨?_, called⟩
      by_contra outside
      rw [calls_of_le (Nat.not_lt.mp outside)] at called
      cases called
    · rintro ⟨_, called⟩
      exact ⟨hanging called, called⟩
  rw [same.length_eq, callCount, List.countP_eq_length_filter]

/-- A change leaves a proper tree and the hanging statements that call an action. -/
structure KeepsCalls (action : Nat) (before after : ScriptTree) : Prop where
  /-- The tree is proper. -/
  proper : after.IsProper
  /-- The statements that call the action hang where they did. -/
  calls : ∀ id, after.Hangs id ∧ after.calls action id ↔ before.Hangs id ∧ before.calls action id

theorem KeepsCalls.refl (proper : tree.IsProper) : KeepsCalls action tree tree :=
  ⟨proper, fun _ => Iff.rfl⟩

theorem KeepsCalls.trans (first : KeepsCalls action before middle)
    (second : KeepsCalls action middle after) : KeepsCalls action before after :=
  ⟨second.proper, fun id => (second.calls id).trans (first.calls id)⟩

theorem KeepsCalls.perm (keeps : KeepsCalls action before after) (proper : before.IsProper) :
    (after.statedCalls action).Perm (before.statedCalls action) := by
  refine (List.perm_ext_iff_of_nodup keeps.proper.nodup_statedCalls
    proper.nodup_statedCalls).mpr fun id => ?_
  rw [keeps.proper.mem_statedCalls, proper.mem_statedCalls]
  exact keeps.calls id

end Counts

section Resembling

/-- Two trees have the same statements in the same places, and these state the same calls. -/
structure Resembles (before after : ScriptTree) : Prop where
  /-- No node is added. -/
  size : after.size = before.size
  /-- Links stay. -/
  parents : after.parents = before.parents
  /-- Bodies stay. -/
  children : ∀ id, after.children id = before.children id
  /-- The same nodes own statements. -/
  owns : ∀ id, (after.node id).body?.isSome = (before.node id).body?.isSome
  /-- The same nodes are expressions. -/
  isExpression : ∀ id, (after.node id).isExpression = (before.node id).isExpression
  /-- No operand is added. -/
  operands : ∀ id, (after.node id).operands ⊆ (before.node id).operands
  /-- The same expressions are statements. -/
  states : ∀ {id value : NodeId}, after.node id = .statement value ↔ before.node id = .statement value
  /-- The same actions are called. -/
  callee? : ∀ id, (after.node id).callee? = (before.node id).callee?
  /-- Aggregates keep their members. -/
  vars : before.vars.Alike after.vars

namespace Resembles

theorem of_finishes (finishes : before.Finishes after) : before.Resembles after where
  size := finishes.size
  parents := finishes.parents
  children := finishes.children
  owns := fun id => by rw [finishes.owns]
  isExpression := finishes.isExpression
  operands := finishes.operands
  states := by
    intro id value
    obtain ⟨kept, here⟩ := finishes.node id
    rw [here, keepArguments_eq_statement]
  callee? := by
    intro id
    obtain ⟨kept, here⟩ := finishes.node id
    rw [here]
    cases before.node id <;> rfl
  vars := finishes.vars

/-- A declaration that is settled is a declaration still. -/
theorem of_settle? {child : NodeId} (applied : before.settle? child = some after) :
    before.Resembles after := by
  unfold settle? at applied
  split at applied
  swap
  · cases applied
  rename_i var init here
  obtain rfl := Option.some.inj applied
  have nodes : ∀ id, (before.modify child fun _ => .declaration var init false).node id =
      before.node id ∨ before.node id = .declaration var init true ∧
        (before.modify child fun _ => .declaration var init false).node id =
          .declaration var init false := by
    intro id
    refine (node_modify_cases before child id fun _ => .declaration var init false).imp_right ?_
    rintro ⟨rfl, changed⟩
    exact ⟨here, changed⟩
  refine ⟨size_modify _ _ _, rfl, fun id => ?_, fun id => ?_, fun id => ?_, fun id => ?_,
    fun {id value} => ?_, fun id => ?_, .refl _⟩
  · rw [ScriptTree.children, ScriptTree.children]
    rcases nodes id with same | ⟨former, changed⟩
    · rw [same]
    · rw [former, changed]
      rfl
  all_goals
    rcases nodes id with same | ⟨former, changed⟩
    · simp [same]
    · simp [former, changed, Node.body?, Node.isExpression, Node.operands, Node.callee?]

variable (resembles : before.Resembles after)

include resembles

theorem holds : after.Holds = before.Holds := by
  funext upper lower
  exact congrArg (lower ∈ ·) (resembles.children upper)

theorem calls (id : NodeId) : after.calls action id = before.calls action id := by
  rw [Bool.eq_iff_iff, calls_iff, calls_iff]
  simp only [resembles.states, resembles.callee?]

theorem callCount : after.callCount action = before.callCount action := by
  rw [ScriptTree.callCount, ScriptTree.callCount, resembles.size]
  exact List.countP_congr fun id _ => by rw [resembles.calls]

theorem isProper (proper : before.IsProper) : after.IsProper where
  operands := by
    intro user operand used
    rw [resembles.isExpression]
    exact proper.operands (resembles.operands user used)
  children := by
    intro holder child held
    rw [resembles.isExpression]
    exact proper.children (resembles.children holder ▸ held)
  bare := by
    intro id expression
    rw [resembles.children]
    exact proper.bare (resembles.isExpression id ▸ expression)
  top := fun holder => resembles.children holder ▸ proper.top holder
  placed := by
    have below : ∀ {upper lower}, after.Below upper lower → before.Below upper lower := by
      intro upper lower edge
      exact edge.imp (fun used => resembles.operands upper used)
        fun held => resembles.children upper ▸ held
    exact
      { sized := by rw [resembles.parents, resembles.size, proper.placed.sized]
        rooted := by rw [resembles.owns, proper.placed.rooted]
        inside := fun edge => resembles.size ▸ proper.placed.inside (below edge)
        linked := by
          intro holder child held
          rw [resembles.children] at held
          refine .inl ?_
          rw [parent?, resembles.parents]
          exact proper.placed.home held (proper.children held)
        once := fun holder => resembles.children holder ▸ proper.placed.once holder
        acyclic := fun id circle =>
          proper.placed.acyclic id (Relation.TransGen.mono (fun _ _ => below) _ _ circle)
        apart := by
          intro user operand holder used _
          rw [resembles.isExpression]
          exact proper.operands (resembles.operands user used) }

theorem keepsCalls (proper : before.IsProper) : KeepsCalls action before after where
  proper := resembles.isProper proper
  calls := by
    intro id
    rw [resembles.calls, Hangs, Hangs, resembles.holds]

end Resembles
end Resembling

end ScriptTree
end NwScript
