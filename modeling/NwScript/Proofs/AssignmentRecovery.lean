import NwScript.Proofs.ExpressionRecovery
import NwScript.SourceProgram

/-!
# Recovery of an assignment

Reserving slots declares locals, a copy down to a local becomes an assignment, and popping it makes it
a statement.  A subroutine that assigns an expression to a local thus reads as declarations and that
assignment.
-/

namespace NwScript
namespace IntExpr

open Recover

theorem Locals.reserved_push (locals : Locals) {slot : Nat} (inside : slot < locals.count + 1) :
    locals.count + 1 - slot ≤ (locals.base.push (.var (locals.first + locals.count))).height ∧
      (locals.base.push (.var (locals.first + locals.count))).slots[
        (locals.base.push (.var (locals.first + locals.count))).height -
          (locals.count + 1 - slot)]? = some (.var (locals.first + slot)) := by
  rw [SlotStack.height_push]
  rcases Nat.lt_succ_iff_lt_or_eq.mp inside with old | rfl
  · obtain ⟨deep, found⟩ := locals.reserved slot old
    have index : locals.base.height + 1 - (locals.count + 1 - slot) =
        locals.base.height - (locals.count - slot) := by omega
    have bound : locals.base.height - (locals.count - slot) < locals.base.slots.size := by
      have height : locals.base.slots.size = locals.base.height := rfl
      omega
    refine ⟨by omega, ?_⟩
    rw [index, SlotStack.push, Array.getElem?_push_lt bound, ← Array.getElem?_eq_getElem bound]
    exact found
  · have index : locals.base.height + 1 - (locals.count + 1 - locals.count) =
        locals.base.slots.size := by
      have height : locals.base.slots.size = locals.base.height := rfl
      omega
    refine ⟨by omega, ?_⟩
    rw [index, SlotStack.push, Array.getElem?_push_size]

/-- One more local. -/
def Locals.more (locals : Locals) : Locals where
  base := locals.base.push (.var (locals.first + locals.count))
  first := locals.first
  count := locals.count + 1
  reserved := fun _ inside => locals.reserved_push inside

section Statements

variable {catalog : ActionCatalog} {locals : Locals} {body : Body} {recovery : Recovery}

theorem Piled.eq_base {tree : ScriptTree} {stack : SlotStack StackEntry}
    (piled : Piled catalog locals tree [] stack) : stack = locals.base := by
  cases piled
  rfl

/-- A statement is added. -/
theorem Works.emit {values : List IntExpr} (works : Works catalog locals body values recovery)
    (child : NodeId) :
    Works catalog locals (body.adding child) values
      { recovery with tree := recovery.tree.append recovery.current child } := by
  have current : recovery.current = ScriptTree.root := by rw [Recovery.current, works.outside]
  have root : (recovery.tree.append recovery.current child).node ScriptTree.root =
      .block (body.adding child) := by
    rw [ScriptTree.node_append, current, if_pos rfl, works.root]
    rfl
  refine works.extend (.append _ _ _) (fun id => ?_) root fun {slot listed} found => ?_
  · by_cases same : id = ScriptTree.root
    · rw [same, root]
      trivial
    · rw [ScriptTree.node_append, current, if_neg same]
      exact works.uncut id
  · have bound := (List.getElem?_eq_some_iff.mp found).1
    rw [Body.adding, List.getElem?_append_left bound, found]

/-- A variable that has just been declared is one more local. -/
theorem Works.more (works : Works catalog locals body [] recovery) {declaration : NodeId}
    (listed : body.children[locals.count]? = some declaration)
    (known : recovery.tree.vars.get? (locals.first + locals.count) =
      some { kind := .localVar, type := .int, declaration := some declaration })
    (declares : recovery.tree.node declaration =
      .declaration (locals.first + locals.count) none false)
    (old : declaration < recovery.tree.size) :
    Works catalog locals.more body []
      { recovery with
        stack := recovery.stack.push (.var (locals.first + locals.count)) } := by
  refine { works with based := ?_, declared := ?_, piled := ?_ }
  · intro entry inside
    rcases Array.mem_push.mp inside with before | rfl
    · exact works.based entry before
    · exact VarTable.lt_of_get? known
  · intro slot inside
    rcases Nat.lt_succ_iff_lt_or_eq.mp inside with before | rfl
    · exact works.declared slot before
    · exact ⟨declaration, false, listed, known, declares, old⟩
  · have base := works.piled.eq_base
    rw [base]
    exact .base

/-- What reserving a slot for an integer adds to a tree outside of its statements. -/
def reservedTree (tree : ScriptTree) : ScriptTree :=
  ((({ tree with vars := (tree.vars.add { kind := .localVar, type := .int }).1 } : ScriptTree).add
    (.declaration tree.vars.size none false)).1).modifyVar tree.vars.size fun entry =>
      { entry with declaration := some tree.size }

theorem reserve_runs (function : recovery.tree.kind = .function) :
    Runs (reserve .int) recovery ()
      { recovery with
        stack := recovery.stack.push (.var recovery.tree.vars.size)
        tree := (reservedTree recovery.tree).append recovery.current recovery.tree.size } := by
  unfold reserve
  refine (Runs.reads _).bind ?_
  rw [function]
  refine Runs.ite_neg (by decide) ?_
  exact (addVar_runs _ _).bind ((push_runs _ _).bind ((addNode_runs _ _).bind
    ((onVar_runs _ _ _).bind (emit_runs _ _))))

section Reserved

variable (tree : ScriptTree)

@[simp]
theorem size_reservedTree : (reservedTree tree).size = tree.size + 1 := by
  show ScriptTree.size (ScriptTree.add _ _).1 = _
  rw [ScriptTree.size_add]
  rfl

@[simp]
theorem count_reservedTree : (reservedTree tree).vars.size = tree.vars.size + 1 := by
  simp [reservedTree, ScriptTree.modifyVar]

theorem node_reservedTree_self :
    (reservedTree tree).node tree.size = .declaration tree.vars.size none false :=
  ScriptTree.node_add_self _ _

theorem node_reservedTree_of_lt {id : NodeId} (old : id < tree.size) :
    (reservedTree tree).node id = tree.node id :=
  ScriptTree.node_add_of_lt _ old

theorem get?_reservedTree_self : (reservedTree tree).vars.get? tree.vars.size =
    some { kind := .localVar, type := .int, declaration := some tree.size } := by
  have added := VarTable.get?_add_self tree.vars { kind := .localVar, type := .int }
  rw [VarTable.get?] at added
  rw [reservedTree, ScriptTree.modifyVar, ScriptTree.vars_add, VarTable.modify, VarTable.get?,
    Array.getElem?_modify, if_pos rfl, added]
  rfl

theorem grows_reservedTree : tree.Grows (reservedTree tree) where
  size := by simp
  node := fun {id} old _ => node_reservedTree_of_lt tree old
  count := by simp
  var := by
    intro id entry known
    have old := VarTable.lt_of_get? known
    have added := VarTable.get?_add_of_lt { kind := .localVar, type := .int } old
    rw [known, VarTable.get?] at added
    have different : tree.vars.size ≠ id := Nat.ne_of_gt old
    refine ⟨entry.consumed, ?_⟩
    rw [reservedTree, ScriptTree.modifyVar, ScriptTree.vars_add, VarTable.modify, VarTable.get?,
      Array.getElem?_modify, if_neg different, added]

end Reserved

/-- Slots are being reserved. -/
structure Opens (catalog : ActionCatalog) (locals : Locals) (body : Body) (recovery : Recovery) :
    Prop extends Works catalog locals body [] recovery where
  /-- The locals are the last variables. -/
  counted : recovery.tree.vars.size = locals.first + locals.count
  /-- A function is recovered. -/
  function : recovery.tree.kind = .function
  /-- There are no statements but the declarations. -/
  full : body.children.length = locals.count

/-- An integer is reserved. -/
theorem Opens.reaches_reserve (opens : Opens catalog locals body recovery) :
    Reaches (reserve .int) recovery fun _ =>
      Opens catalog locals.more (body.adding recovery.tree.size) := by
  refine (reserve_runs opens.function).reaches ?_
  have uncut : ∀ id, ((reservedTree recovery.tree).node id).HasNoDefaults catalog := by
    refine ScriptTree.hasNoDefaults_of_lt fun id inside => ?_
    rw [size_reservedTree] at inside
    rcases Nat.lt_succ_iff_lt_or_eq.mp inside with old | rfl
    · rw [node_reservedTree_of_lt _ old]
      exact opens.uncut id
    · rw [node_reservedTree_self]
      trivial
  have emitted := (opens.toWorks.grow (grows_reservedTree _) uncut
    (node_reservedTree_of_lt _ opens.filled)).emit recovery.tree.size
  have listed : (body.adding recovery.tree.size).children[locals.count]? =
      some recovery.tree.size := by
    rw [Body.adding, ← opens.full, List.getElem?_append_right (Nat.le_refl _), Nat.sub_self]
    rfl
  have other : recovery.tree.size ≠ recovery.current := by
    rw [Recovery.current, opens.outside]
    exact Nat.ne_of_gt opens.filled
  have known : ((reservedTree recovery.tree).append recovery.current recovery.tree.size).vars.get?
      (locals.first + locals.count) =
        some { kind := .localVar, type := .int, declaration := some recovery.tree.size } := by
    rw [ScriptTree.vars_append, ← opens.counted, get?_reservedTree_self]
  have declares : ((reservedTree recovery.tree).append recovery.current recovery.tree.size).node
      recovery.tree.size = .declaration (locals.first + locals.count) none false := by
    rw [ScriptTree.node_append, if_neg other, node_reservedTree_self, opens.counted]
  have works := emitted.more listed known declares (by simp)
  rw [← opens.counted] at works
  refine { works with counted := ?_, function := ?_, full := ?_ }
  · simp [Locals.more, opens.counted, Nat.add_assoc]
  · show ((reservedTree recovery.tree).append _ _).kind = _
    rw [ScriptTree.kind_append]
    exact (ScriptTree.kind_add _ _).trans opens.function
  · simp [Body.adding, Locals.more, opens.full]

/-- Slots are reserved one after another. -/
theorem Opens.visits_reserves {input : RecoveryInput} (straight : IsStraight input) (more : Nat)
    {first position : Nat} {before : Recovery}
    (spans : input.program.Spans first position (List.replicate more (.simple .reserve .int)))
    (opens : Opens input.catalog locals body before) :
    ∃ after final done, Visits input first more before after ∧
      Opens input.catalog final done after ∧ final.first = locals.first ∧
        final.count = locals.count + more := by
  induction more generalizing first position before locals body with
  | zero => exact ⟨before, locals, body, .done _ _, opens, rfl, rfl⟩
  | succ more induction =>
      rw [List.replicate_succ] at spans
      have bound := spans.inside
      rw [List.length_cons] at bound
      obtain ⟨middle, visit, next⟩ : ∃ middle, Visits input first 1 before middle ∧
          Opens input.catalog locals.more (body.adding before.tree.size) middle := by
        refine opens.toIsOutside.exists_visits straight (by omega) ?_
        have executed : execute input first before.track = reserve .int := by
          simp only [execute, spans.head.1]
          rfl
        rw [executed]
        have entered : Opens input.catalog locals body
            { before with position := input.program.position first, track := none } :=
          { opens.toWorks.entered _ with
            counted := opens.counted
            function := opens.function
            full := opens.full }
        exact entered.reaches_reserve
      obtain ⟨after, final, done, visits, opened, same, count⟩ := induction spans.tail next
      refine ⟨after, final, done, ?_, opened, same, ?_⟩
      · rw [Nat.add_comm]
        exact visit.append visits
      · rw [count]
        simp only [Locals.more]
        omega

/-- A node assigns an expression to a local. -/
def Assigns (catalog : ActionCatalog) (first : VarId) (tree : ScriptTree) (target : Nat)
    (value : IntExpr) (assignment : NodeId) : Prop :=
  assignment < tree.size ∧ ∃ place < assignment, ∃ node < assignment,
    tree.node assignment = .assign place node ∧
      tree.node place = .reference (first + target) ∧ value.Spells catalog first tree node

theorem Assigns.grow {before after : ScriptTree} {first : VarId} {target : Nat} {value : IntExpr}
    {assignment : NodeId} (assigns : Assigns catalog first before target value assignment)
    (grows : before.Grows after) : Assigns catalog first after target value assignment := by
  obtain ⟨old, place, place_below, node, node_below, here, refers, spells⟩ := assigns
  refine ⟨Nat.lt_of_lt_of_le old grows.size, place, place_below, node, node_below, ?_, ?_, ?_⟩
  · exact (grows.node old (by rw [here]; rfl)).trans here
  · exact (grows.node (place_below.trans old) (by rw [refers]; rfl)).trans refers
  · exact spells.grow grows _ (node_below.trans old)

/-- An assignment that nothing has used is on top of the stack. -/
structure Assigned (catalog : ActionCatalog) (locals : Locals) (body : Body) (target : Nat)
    (value : IntExpr) (recovery : Recovery) (var : VarId) (assignment : NodeId) : Prop where
  /-- Below it no operand waits. -/
  works : Works catalog locals body [] { recovery with stack := locals.base }
  /-- The assignment is on top. -/
  top : recovery.stack = locals.base.push (.var var)
  /-- It is nowhere else. -/
  fresh : StackEntry.var var ∉ locals.base.slots
  /-- It has not been used. -/
  unused : ∃ type, recovery.tree.vars.get? var = some (.temporary type assignment)
  /-- It assigns. -/
  assigns : Assigns catalog locals.first recovery.tree target value assignment

/-- A value that is copied down to a local becomes an assignment. -/
theorem Works.reaches_assign {target : Nat} {value : IntExpr}
    (works : Works catalog locals body [value] recovery) (inside : target < locals.count) :
    Reaches (copyDown (.assignSlot (-4 * ((locals.count + 1 - target : Nat) : Int)))
      Recover.stackEntries?) recovery fun _ after =>
        ∃ var assignment, Assigned catalog locals body target value after var assignment := by
  obtain ⟨node, after, taken, rest, _, known, spells⟩ := works.take
  obtain ⟨declaration, consumed, _, local_known, _⟩ := works.declared target inside
  have kind : recovery.tree.vars.kind (locals.first + target) = .localVar := by
    rw [VarTable.kind, local_known]
  have no_result : isResult recovery [.var (locals.first + target)] = false := by
    simp [isResult, kind]
  have whole : Runs (namedValue [.var (locals.first + target)]) recovery
      (some (locals.first + target)) recovery := by
    unfold namedValue
    refine (Runs.reads _).bind ?_
    dsimp only
    rw [works.isNamed inside]
    exact .done _ _
  have found : Recover.stackEntries? recovery (-4 * ((locals.count + 1 - target : Nat) : Int)) 4 =
      some [.var (locals.first + target)] := works.stackEntries? inside
  have no_use : (Node.reference (locals.first + target)).HasNoDefaults catalog := trivial
  have referred := rest.addNode no_use
  have no_call : (Node.assign after.tree.size node).HasNoDefaults catalog := trivial
  have assigned := referred.addNode no_call
  unfold copyDown copyOperand
  refine (Runs.done _ _).andThen ((Runs.reads _).andThen ?_)
  rw [found]
  dsimp only
  unfold assign
  refine (Runs.reads _).andThen ?_
  rw [no_result]
  refine whole.andThen ((works.commit_runs inside).andThen (taken.andThen ((addNode_runs _ _).andThen
    ((addNode_runs _ _).andThen ((Runs.reads _).andThen ((pushValue_runs _ _ _).andThen
      ((Runs.done _ _).reaches ?_)))))))
  have base : after.stack = locals.base := rest.piled.eq_base
  let built : ScriptTree :=
    ((after.tree.add (.reference (locals.first + target))).1.add
      (.assign after.tree.size node)).1
  have place_old : after.tree.size < (after.tree.add (.reference (locals.first + target))).1.size := by
    simp
  have first_grows := ScriptTree.Grows.add after.tree (.reference (locals.first + target))
  have grows := first_grows.trans (.add _ (.assign after.tree.size node))
  have assigns : Assigns catalog locals.first built target value
      (after.tree.add (.reference (locals.first + target))).1.size := by
    refine ⟨by simp [built], after.tree.size, place_old, node, known.trans place_old,
      ScriptTree.node_add_self _ _, ?_, spells.grow grows _ known⟩
    rw [ScriptTree.node_add_of_lt _ place_old, ScriptTree.node_add_self]
  have pushed := ScriptTree.Grows.addVar built (.temporary (built.vars.type (locals.first + target))
    (after.tree.add (.reference (locals.first + target))).1.size)
  refine ⟨built.vars.size, _, ?_, ?_, ?_, ⟨_, VarTable.get?_add_self _ _⟩, assigns.grow pushed⟩
  · exact { assigned.grow pushed assigned.uncut rfl with piled := .base }
  · show after.stack.push _ = _
    rw [base]
  · intro listed
    exact Nat.lt_irrefl _ (assigned.based _ listed)

/-- An assignment that is popped becomes a statement. -/
theorem Assigned.reaches_pop {input : RecoveryInput} {command target : Nat} {value : IntExpr}
    {var : VarId} {assignment : NodeId}
    (assigned : Assigned catalog locals body target value recovery var assignment)
    (here : input.program.instruction command = .popSlots 1) :
    Reaches (popSlots input command) recovery fun _ after => ∃ statement,
      Works catalog locals (body.adding statement) [] after ∧
        after.tree.node statement = .statement assignment ∧
          Assigns catalog locals.first after.tree target value assignment := by
  obtain ⟨type, unused⟩ := assigned.unused
  obtain ⟨old, place, _, node, _, assigns, _⟩ := assigned.assigns
  let popped : Recovery := { recovery with stack := locals.base }
  have works : Works catalog locals body [] popped := assigned.works
  have effect : popped.tree.hasSideEffects assignment = true := by
    have shown : recovery.tree.node assignment = .assign place node := assigns
    show ScriptTree.evaluates recovery.tree Node.isEffect (recovery.tree.size + 1) assignment = true
    rw [ScriptTree.evaluates, shown]
    rfl
  have dropped : Runs (dropTemporary var) popped () { popped with
      tree := (popped.tree.add (.statement assignment)).1.append popped.current
        popped.tree.size } := by
    unfold dropTemporary
    refine (Runs.reads _).bind ?_
    have known : popped.tree.vars.get? var = some (.temporary type assignment) := unused
    rw [known]
    exact Runs.ite_pos effect (emitNode_runs _ _)
  have single : Runs (dropSlots [] 1) recovery [] { popped with
      tree := (popped.tree.add (.statement assignment)).1.append popped.current
        popped.tree.size } := by
    have top : recovery.stack.pop? = some (.var var, locals.base) := by
      rw [assigned.top, SlotStack.pop?_push]
    have once : ¬locals.base.peek? 1 = some (.var var) := fun peeked =>
      assigned.fresh (SlotStack.mem_of_peek? _ peeked)
    have kind : popped.tree.vars.kind var = .temp := by
      have known : popped.tree.vars.get? var = some (.temporary type assignment) := unused
      rw [VarTable.kind, known]
      rfl
    unfold dropSlots
    refine (Runs.reads _).bind ?_
    rw [top]
    refine (onStack_runs _ _).bind (Runs.ite_neg once ((Runs.reads _).bind ?_))
    dsimp only
    rw [kind]
    exact dropped.bind (.done _ _)
  have plain : (Node.statement assignment).HasNoDefaults catalog := trivial
  have added := works.addNode plain
  have other : recovery.tree.size ≠ popped.current := by
    rw [Recovery.current, works.outside]
    exact Nat.ne_of_gt works.filled
  have grows := (ScriptTree.Grows.add popped.tree (.statement assignment)).trans
    (.append _ popped.current popped.tree.size)
  unfold popSlots
  rw [here]
  refine single.andThen ((Runs.done _ _).reaches ⟨recovery.tree.size, ?_, ?_, ?_⟩)
  · exact added.emit popped.tree.size
  · rw [ScriptTree.node_append, if_neg other]
    exact ScriptTree.node_add_self _ _
  · exact assigned.assigns.grow grows

/-- Locals whose declarations stay are popped without a trace. -/
theorem exists_dropSlots_runs (count : Nat) (found : List VarId)
    (tops : ∀ place < count, ∃ var,
      recovery.stack.slots[recovery.stack.slots.size - 1 - place]? = some (.var var) ∧
        place < recovery.stack.slots.size ∧ recovery.tree.vars.kind var = .localVar ∧
          recovery.pendingCall? (recovery.tree.vars.root var) = none) :
    ∃ roots stack, Runs (dropSlots found count) recovery roots { recovery with stack } := by
  induction count generalizing found recovery with
  | zero => exact ⟨found, recovery.stack, .done _ _⟩
  | succ count induction =>
      obtain ⟨var, top, filled, kind, settled⟩ := tops 0 (Nat.succ_pos count)
      have popped : recovery.stack.pop? = some (.var var, ⟨recovery.stack.slots.pop⟩) := by
        rw [SlotStack.pop?, Array.back?, ← Nat.sub_zero (recovery.stack.slots.size - 1), top]
        rfl
      let below : Recovery := { recovery with stack := ⟨recovery.stack.slots.pop⟩ }
      have rest : ∀ found, ∃ roots stack,
          Runs (dropSlots found count) below roots { recovery with stack } := by
        intro found
        refine @induction below found fun place inside => ?_
        obtain ⟨other, deeper, bound, facts⟩ := tops (place + 1) (Nat.succ_lt_succ inside)
        refine ⟨other, ?_, ?_, facts⟩
        · show recovery.stack.slots.pop[recovery.stack.slots.pop.size - 1 - place]? = _
          rw [Array.size_pop, Array.getElem?_pop, if_pos (by omega), ← deeper]
          congr 1
          omega
        · show place < recovery.stack.slots.pop.size
          rw [Array.size_pop]
          omega
      have kept : Runs (dropLocal var) below (some (recovery.tree.vars.root var)) below := by
        unfold dropLocal
        refine (Runs.reads _).bind ?_
        have same : below.pendingCall? (below.tree.vars.root var) = none := settled
        dsimp only
        rw [same]
        exact .done _ _
      unfold dropSlots
      by_cases twice : (⟨recovery.stack.slots.pop⟩ : SlotStack StackEntry).peek? 1 = some (.var var)
      · obtain ⟨roots, stack, runs⟩ := rest found
        refine ⟨roots, stack, (Runs.reads _).bind ?_⟩
        rw [popped]
        exact (onStack_runs _ _).bind (Runs.ite_pos twice runs)
      · obtain ⟨roots, stack, runs⟩ := rest (if recovery.tree.vars.root var ∈ found then found
          else found ++ [recovery.tree.vars.root var])
        refine ⟨roots, stack, (Runs.reads _).bind ?_⟩
        rw [popped]
        refine (onStack_runs _ _).bind (Runs.ite_neg twice ((Runs.reads _).bind ?_))
        dsimp only
        rw [kind]
        exact kept.bind runs

theorem Works.pendingCall? (works : Works catalog locals body [] recovery) {slot : Nat}
    (inside : slot < locals.count) :
    recovery.pendingCall? (recovery.tree.vars.root (locals.first + slot)) = none := by
  obtain ⟨declaration, consumed, _, known, declares, _⟩ := works.declared slot inside
  have free : recovery.tree.vars.parent? (locals.first + slot) = none := by
    rw [VarTable.parent?, known]
    rfl
  have declaring : recovery.tree.vars.declaration? (locals.first + slot) = some declaration := by
    rw [VarTable.declaration?, known]
    rfl
  rw [VarTable.root_eq_self free, Recovery.pendingCall?, declaring, Option.bind_eq_bind,
    Option.bind_some, declares]

/-- The locals are popped at the end. -/
theorem Works.reaches_popLocals (works : Works catalog locals body [] recovery)
    {input : RecoveryInput} {command : Nat}
    (here : input.program.instruction command = .popSlots locals.count)
    (ends : ∀ limit, continuesBehind input command limit = .ok false) :
    Reaches (popSlots input command) recovery fun _ after => ∃ stack, after = { recovery with stack } := by
  have base := works.piled.eq_base
  have height : recovery.stack.slots.size = locals.base.height := by rw [base]; rfl
  obtain ⟨roots, stack, dropped⟩ : ∃ roots stack,
      Runs (dropSlots [] locals.count) recovery roots { recovery with stack } := by
    refine exists_dropSlots_runs locals.count [] fun place inside => ?_
    have slot_inside : locals.count - 1 - place < locals.count := by omega
    obtain ⟨deep, found⟩ := locals.reserved _ slot_inside
    obtain ⟨declaration, consumed, _, known, _⟩ := works.declared _ slot_inside
    refine ⟨locals.first + (locals.count - 1 - place), ?_, by omega, ?_,
      works.pendingCall? slot_inside⟩
    · rw [height, base, ← found]
      congr 1
      omega
    · rw [VarTable.kind, known]
  have count : (-4 * (locals.count : Int)).natAbs / 4 = locals.count := by omega
  have offset : (Instruction.popSlots locals.count).offset? = some (-4 * (locals.count : Int)) := rfl
  unfold popSlots
  rw [here, offset]
  dsimp only
  rw [count]
  refine dropped.andThen ?_
  by_cases wraps : roots ≠ []
  · rw [if_pos wraps]
    unfold wrapLocals
    exact (Runs.reads _).andThen ((Runs.lift (ends _) _).andThen
      ((Runs.done () _).reaches ⟨stack, rfl⟩))
  · rw [if_neg wraps]
    exact (Runs.done _ _).reaches ⟨stack, rfl⟩

end Statements

section Visits

variable {input : RecoveryInput} {locals : Locals} {body : Body} {before : Recovery}
  {first position target : Nat} {value : IntExpr}

theorem Works.visits_assign (works : Works input.catalog locals body [value] before)
    (inside : target < locals.count) (straight : IsStraight input)
    (spans : input.program.Spans first position
      [.assignSlot (-4 * ((locals.count + 1 - target : Nat) : Int))]) :
    ∃ after, Visits input first 1 before after ∧ ∃ var assignment,
      Assigned input.catalog locals body target value after var assignment := by
  refine works.visits straight (Nat.lt_of_succ_lt spans.inside) fun recovery entered => ?_
  have executed : execute input first before.track =
      copyDown (.assignSlot (-4 * ((locals.count + 1 - target : Nat) : Int)))
        Recover.stackEntries? := by
    simp only [execute, spans.head.1]
    rfl
  rw [executed]
  exact entered.reaches_assign inside

theorem Assigned.visits_pop {var : VarId} {assignment : NodeId}
    (assigned : Assigned input.catalog locals body target value before var assignment)
    (straight : IsStraight input)
    (spans : input.program.Spans first position [.popSlots 1]) :
    ∃ after, Visits input first 1 before after ∧ ∃ statement,
      Works input.catalog locals (body.adding statement) [] after ∧
        after.tree.node statement = .statement assignment ∧
          Assigns input.catalog locals.first after.tree target value assignment := by
  have works := assigned.works
  have outside : IsOutside body before := { works with }
  refine outside.exists_visits straight (Nat.lt_of_succ_lt spans.inside) ?_
  have executed : execute input first before.track = popSlots input first := by
    simp only [execute, spans.head.1]
    rfl
  rw [executed]
  have entered : Assigned input.catalog locals body target value
      { before with position := input.program.position first, track := none } var assignment :=
    { assigned with works := works.entered _ }
  exact entered.reaches_pop spans.head.1

theorem Works.visits_popLocals (works : Works input.catalog locals body [] before)
    (straight : IsStraight input)
    (spans : input.program.Spans first position [.popSlots locals.count])
    (ends : ∀ limit, continuesBehind input first limit = .ok false) :
    ∃ after, Visits input first 1 before after ∧ IsOutside body after ∧
      after.tree = before.tree := by
  refine works.toIsOutside.exists_visits straight (Nat.lt_of_succ_lt spans.inside) ?_
  have executed : execute input first before.track = popSlots input first := by
    simp only [execute, spans.head.1]
    rfl
  rw [executed]
  have entered := works.entered (input.program.position first)
  obtain ⟨_, after, runs, stack, rfl⟩ := entered.reaches_popLocals spans.head.1 ends
  exact runs.reaches ⟨{ entered with }, rfl⟩

/-- The return at the end writes nothing. -/
theorem IsOutside.visits_return (outside : IsOutside body before) (straight : IsStraight input)
    (inside : first < input.program.commandCount)
    (here : input.program.instruction first = .simple .ret .void)
    (last : input.nextLive first = .ok none) :
    Visits input first 1 before
      { before with position := input.program.position first, track := none, finished := true } := by
  refine outside.visits straight inside ?_
  simp only [execute, here]
  have open_end : (!Recovery.inClosure
      { before with position := input.program.position first, track := none }) = true := by
    rw [Recovery.inClosure, outside.outside]
    rfl
  have free : ¬before.pendingReturn.isSome = true := by
    rw [outside.owed]
    exact Bool.false_ne_true
  show Runs (leaveSubroutine input first) _ _ _
  unfold leaveSubroutine
  refine (Runs.reads _).bind (Runs.ite_pos open_end ((Runs.lift last _).bind ?_))
  exact Runs.ite_neg free (Runs.changes _ _)

end Visits

section Routine

variable {input : RecoveryInput} {locals target : Nat} {value : IntExpr}

/-- The frame before any slot is reserved. -/
def Locals.none (recovery : Recovery) : Locals where
  base := recovery.stack
  first := recovery.tree.vars.size
  count := 0
  reserved := fun _ inside => absurd inside (Nat.not_lt_zero _)

theorem opens_of_isFresh {recovery : Recovery} {body : Body} (catalog : ActionCatalog)
    (fresh : RecoveryInput.IsFresh recovery body) :
    Opens catalog (.none recovery) body recovery where
  outside := fresh.outside
  going := fresh.going
  owed := fresh.owed
  still := by simp [fresh.track]
  root := by simp [ScriptTree.node, fresh.nodes, ScriptTree.root]
  filled := by simp [ScriptTree.size, fresh.nodes]
  uncut := fresh.hasNoDefaults catalog
  based := by
    intro entry listed
    obtain ⟨id, inside, rfl⟩ := fresh.known entry listed
    exact inside
  frame := fun id below => ⟨below, fresh.plain.kind_ne id⟩
  declared := fun _ inside => absurd inside (Nat.not_lt_zero _)
  piled := .base
  counted := rfl
  function := fresh.kind
  full := by rw [fresh.children]; rfl

/-- What the recovery of an assignment ends with. -/
structure Ends (catalog : ActionCatalog) (locals target : Nat) (value : IntExpr)
    (tree : ScriptTree) : Prop where
  /-- The locals are declared, and one of them is assigned to. -/
  shape : ∃ (slots : Locals) (body : Body) (statement assignment : NodeId) (last : Recovery),
    last.tree = tree ∧ slots.count = locals ∧ body.children.length = locals ∧
      Works catalog slots (body.adding statement) [] last ∧
        tree.node statement = .statement assignment ∧
          Assigns catalog slots.first tree target value assignment

/-- The subroutine is recovered. -/
theorem exists_run_routine (alone : input.program.IsAlone (value.routine locals target))
    (straight : IsStraight input) (function : input.kind 0 = .function)
    (proper : value.Proper input.catalog locals) (inside : target < locals) :
    ∃ recovery, input.run 0 = .ok recovery ∧
      Ends input.catalog locals target value recovery.tree := by
  obtain ⟨body, fresh⟩ := RecoveryInput.exists_isFresh function
  obtain ⟨reserved, slots, declared, reserves, opened, _, count⟩ :=
    (opens_of_isFresh input.catalog fresh).visits_reserves straight locals (spans_routine alone).left
  obtain rfl : slots.count = locals := count.trans (Nat.zero_add _)
  have length := length_assignment slots.count target value
  have total : (value.routine slots.count target).length =
      slots.count + (value.code slots.count).length + 4 := by
    rw [routine, List.length_append, length]
    rfl
  obtain ⟨position, spans⟩ : ∃ position, input.program.Spans slots.count position
      (value.code slots.count ++ ([.assignSlot (-4 * ((slots.count + 1 - target : Nat) : Int))] ++
        ([.popSlots 1] ++ [.popSlots slots.count]))) := by
    have rest := (spans_routine alone).right
    rw [List.length_replicate, Nat.zero_add] at rest
    exact ⟨_, rest⟩
  have tail := spans.right
  obtain ⟨computed, computes, pushed⟩ := opened.toWorks.visits_code straight value proper spans.left
  obtain ⟨waiting, assigns, var, assignment, assigned⟩ := pushed.visits_assign inside straight tail.left
  obtain ⟨stated, pops, statement, works, states, assigning⟩ :=
    assigned.visits_pop straight tail.right.left
  have returns := alone.instruction (getElem?_routine_last slots.count target value)
  rw [length] at returns
  have ends : ∀ limit, continuesBehind input
      (slots.count + (value.code slots.count).length + 1 + 1) limit = .ok false := by
    intro limit
    have found : input.nextLive (slots.count + (value.code slots.count).length + 2) =
        .ok (some (slots.count + (value.code slots.count).length + 3)) := by
      rw [RecoveryInput.nextLive_eq alone straight.live (by omega), if_pos (by omega)]
    have opcode : input.program.opcode (slots.count + (value.code slots.count).length + 3) =
        .ret := by
      rw [Program.opcode, returns]
      rfl
    rw [continuesBehind, found]
    show Except.ok _ = _
    rw [opcode]
    simp
  obtain ⟨left, leaves, outside, same⟩ := works.visits_popLocals straight tail.right.right ends
  have last : input.nextLive (slots.count + (value.code slots.count).length + 3) = .ok none := by
    rw [RecoveryInput.nextLive_eq alone straight.live (by omega), if_neg (by omega)]
  have finishes := outside.visits_return straight (by rw [alone.commandCount]; omega) returns last
  have visits := (reserves.append_zero (computes.append (assigns.append (pops.append
    (leaves.append finishes))))).runs
  have commands : List.range' 0 (slots.count + ((value.code slots.count).length + 4)) =
      input.program.body 0 := by
    rw [alone.body, List.range_eq_range', total]
    congr 1
  have plain : (left.tree.node ScriptTree.root).isSwitch = false := by
    rw [outside.root]
    rfl
  change Runs (visitAll input
    (List.range' 0 (slots.count + ((value.code slots.count).length + 4)))) _ _ _ at visits
  rw [commands] at visits
  refine ⟨_, run_eq_ok visits (complete_outside outside.outside plain outside.owed), ?_⟩
  refine ⟨slots, declared, statement, assignment, stated, same.symm, rfl, opened.full, works, ?_, ?_⟩
  · rw [same]
    exact states
  · rw [same]
    exact assigning

/-- What a script declares and assigns. -/
def statements (catalog : ActionCatalog) (locals target : Nat) (value : IntExpr) : List Statement :=
  (List.range locals).map (fun slot => .declaration ("int " ++ localName slot) none) ++
    [.evaluate (.assign (.word (localName target)) (value.expression catalog))]

section Reading

open ScriptTree (named)

variable {catalog : ActionCatalog} {tree : ScriptTree}

theorem Works.isNamed_named {slots : Locals} {body : Body} {last : Recovery}
    (works : Works catalog slots body [] last) :
    IsNamed (named last.tree) slots.first slots.count := by
  intro slot inside
  have frame : ∀ id < slots.first, ∀ entry, last.tree.vars.get? id = some entry →
      entry.kind ≠ .localVar := by
    intro id below entry known
    have other := (works.frame id below).2
    rwa [VarTable.kind, known] at other
  have locals : ∀ place < slots.count, ∃ entry,
      last.tree.vars.get? (slots.first + place) = some entry ∧
        VarTable.Naming.IsIntLocal entry := by
    intro place bound
    obtain ⟨declaration, consumed, _, known, _⟩ := works.declared place bound
    exact ⟨_, known, rfl, rfl, rfl⟩
  obtain ⟨entry, _, plain, given⟩ := VarTable.get?_assignNames_intLocal frame locals inside
  exact ⟨_, given, plain.2.1, plain.1, plain.2.2, rfl⟩

theorem pairElse_eq_self {statements : List Statement}
    (paired : ∀ statement ∈ statements, ∀ body, statement ≠ .otherwise body) :
    Statement.pairElse statements = statements := by
  induction statements with
  | nil => rfl
  | cons statement rest induction =>
      have others := induction fun other listed => paired other (List.mem_cons_of_mem _ listed)
      unfold Statement.pairElse
      split
      · rename_i condition body other behind same
        obtain ⟨rfl, rfl⟩ := List.cons.inj same
        exact absurd rfl (paired _ (List.mem_cons_of_mem _ List.mem_cons_self) other)
      · rename_i same
        obtain ⟨rfl, rfl⟩ := List.cons.inj same
        rw [others]
      · rename_i same
        exact absurd same (List.cons_ne_nil _ _)

/-- The recovered statements. -/
theorem Ends.statements_finish (ends : Ends input.catalog locals target value tree)
    (proper : value.Proper input.catalog locals) (inside : target < locals) :
    (input.finish tree).statements = value.statements input.catalog locals target := by
  obtain ⟨slots, body, statement, assignment, last, rfl, rfl, full, works, states, assigns⟩ :=
    ends.shape
  have names := works.isNamed_named
  obtain ⟨old, place, place_below, node, node_below, here, refers, spells⟩ := assigns
  rw [RecoveryInput.finish_eq_named works.uncut, ScriptTree.statements, ScriptTree.statementsOf]
  have children : (named last.tree).children ScriptTree.root = body.children ++ [statement] := by
    have root : (named last.tree).node ScriptTree.root = .block (body.adding statement) := works.root
    rw [ScriptTree.children, root]
    rfl
  obtain ⟨depth, deep⟩ := Nat.exists_eq_succ_of_ne_zero (Nat.ne_of_gt works.filled)
  have size : (named last.tree).size = depth + 1 := deep
  have declarations : body.children.map ((named last.tree).statementFrom (depth + 1)) =
      (List.range slots.count).map fun slot => .declaration ("int " ++ localName slot) none := by
    apply List.ext_getElem
    · simp [full]
    · intro slot bound _
      have slot_inside : slot < slots.count := by
        rw [List.length_map, full] at bound
        exact bound
      obtain ⟨declaration, _, listed, _, declares, _⟩ := works.declared slot slot_inside
      obtain ⟨entry, known, type, _⟩ := names slot slot_inside
      rw [Body.adding, List.getElem?_append_left (by omega), List.getElem?_eq_getElem (by omega)]
        at listed
      have shown : (named last.tree).node declaration =
          .declaration (slots.first + slot) none false := declares
      have text : (named last.tree).declarationText (slots.first + slot) =
          "int " ++ localName slot := by
        have spelled : ∀ structs : StructTable, structs.spell .int = "int" := fun _ => rfl
        rw [ScriptTree.declarationText, names.varName slot_inside, VarTable.type, known]
        dsimp only
        rw [type, spelled]
        rfl
      rw [List.getElem_map, Option.some.inj listed, ScriptTree.statementFrom, shown]
      dsimp only
      rw [text]
      simp
  have assigned : (named last.tree).statementFrom (depth + 1) statement =
      .evaluate (.assign (.word (localName target)) (value.expression input.catalog)) := by
    have shown : (named last.tree).node statement = .statement assignment := states
    have assigning : (named last.tree).node assignment = .assign place node := here
    have referring : (named last.tree).node place = .reference (slots.first + target) := refers
    have kept : ∀ {id : NodeId}, id < last.tree.size → (last.tree.node id).body? = none →
        (named last.tree).node id = last.tree.node id := fun _ _ => rfl
    have spelled := spells.transfer kept value (node_below.trans old)
    have bound : assignment < depth + 1 := by
      rw [← Nat.succ_eq_add_one, ← deep]
      exact old
    rw [ScriptTree.statementFrom, shown]
    dsimp only
    rw [ScriptTree.expression, size, ScriptTree.expressionFrom, assigning]
    dsimp only
    rw [names.expressionFrom inside referring,
      spelled.expressionFrom names value proper (node_below.trans bound)]
  rw [children, size, List.map_append, declarations, List.map_singleton, assigned]
  refine pairElse_eq_self fun found listed => ?_
  rcases List.mem_append.mp listed with declares | last
  · obtain ⟨slot, _, rfl⟩ := List.mem_map.mp declares
    exact fun _ => Statement.noConfusion
  · rw [List.mem_singleton.mp last]
    exact fun _ => Statement.noConfusion

end Reading

end Routine

/-- A subroutine that reserves integers, assigns an expression to one of them and pops them is
recovered as their declarations and that assignment. -/
theorem recover_routine (catalog : ActionCatalog) (settings : Settings) {locals target : Nat}
    {value : IntExpr} (proper : value.Proper catalog locals) (inside : target < locals) :
    let program := Program.ofCode (value.routine locals target) (routine_ne_nil locals target value)
    ∃ analysis tree, Analysis.ofProgram program catalog settings = .ok analysis ∧
      (analysis.recoveryInput program catalog settings (analysis.names program)).recover 0 =
        .ok tree ∧
      tree.statements = value.statements catalog locals target := by
  intro program
  have alone : program.IsAlone (value.routine locals target) := Program.isAlone_ofCode _ _
  obtain ⟨analysis, analyzed, live, layout⟩ := exists_ofProgram_routine alone catalog settings
  let input := analysis.recoveryInput program catalog settings (analysis.names program)
  have straight : IsStraight input :=
    ⟨live, fun command bound jumps => skipsOperand_routine alone bound jumps⟩
  have function : input.kind 0 = .function := by
    have globals : input.layout.globals = none := congrArg Layout.globals layout
    rw [RecoveryInput.kind, globals]
    rfl
  have alone_input : input.program.IsAlone (value.routine locals target) := alone
  obtain ⟨recovery, ran, ends⟩ := exists_run_routine alone_input straight function proper inside
  refine ⟨analysis, input.finish recovery.tree, analyzed, ?_, ends.statements_finish proper inside⟩
  show (input.run 0).map _ = _
  rw [ran]
  rfl

/-- The second of two locals tested with the first one and a call of an action. -/
def sampleExpr : IntExpr :=
  .binary .add (.logical .and (.read 1) (.logical .or (.read 0) (.call 0 [.literal 6])))
    (.unary .negate (.literal 1))

theorem recover_routine_sample :
    let catalog : ActionCatalog := ⟨[(0, .plain "Random" .int [.int])]⟩
    let program := Program.ofCode (sampleExpr.routine 2 0) (routine_ne_nil 2 0 sampleExpr)
    sampleExpr.Proper catalog 2 ∧ 0 < 2 ∧ ∃ analysis tree,
      Analysis.ofProgram program catalog {} = .ok analysis ∧
        (analysis.recoveryInput program catalog {} (analysis.names program)).recover 0 = .ok tree ∧
          tree.statements =
            [.declaration "int int1" none, .declaration "int int2" none,
              .evaluate (.assign (.word "int1") (.binary .add
                (.logical .and (.word "int2")
                  (.logical .or (.word "int1") (.call "Random" [.literal (.int 6)])))
                (.unary .negate (.literal (.int 1)))))] := by
  intro catalog program
  have proper : sampleExpr.Proper catalog 2 := by
    simp only [sampleExpr, Proper, AllProper, and_true]
    exact ⟨by decide, by decide, "Random", rfl⟩
  exact ⟨proper, by decide, recover_routine catalog {} proper (by decide)⟩

end IntExpr
end NwScript
