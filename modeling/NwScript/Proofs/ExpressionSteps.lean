import NwScript.Proofs.SpelledExpressions

/-!
# Recovery of one operation of an expression

While the code of an expression is replayed, the stack holds the frame, the locals and above them one
entry for each operand that waits for its operator.  An entry is a literal or an intermediate value
that is nowhere else on the stack, so an operator takes its operands without copying them, and what it
pushes spells the expression that it forms.
-/

namespace NwScript

namespace StackEntry

variable {before after tree : ScriptTree} {entry : StackEntry} {node : NodeId}

/-- The literal or the variable of an entry exists. -/
def IsKnown (tree : ScriptTree) : StackEntry → Prop
  | .literal node => node < tree.size
  | .var id => id < tree.vars.size

/-- An entry is a literal or an intermediate value, by the node of its expression. -/
def Holds (tree : ScriptTree) (node : NodeId) : StackEntry → Prop
  | .literal held => held = node
  | .var id => ∃ found, tree.vars.get? id = some found ∧ found.kind = .temp ∧
      found.value = some node

theorem IsKnown.grow (known : entry.IsKnown before) (grows : before.Grows after) :
    entry.IsKnown after := by
  cases entry with
  | literal node => exact Nat.lt_of_lt_of_le known grows.size
  | var var => exact Nat.lt_of_lt_of_le known grows.count

theorem Holds.grow (holds : entry.Holds before node) (grows : before.Grows after) :
    entry.Holds after node := by
  cases entry with
  | literal literal => exact holds
  | var var =>
      obtain ⟨found, known, temporary, valued⟩ := holds
      obtain ⟨consumed, kept⟩ := grows.var known
      exact ⟨_, kept, temporary, valued⟩

theorem Holds.isKnown (holds : entry.Holds tree node) (known : node < tree.size) :
    entry.IsKnown tree := by
  cases entry with
  | literal literal =>
      rw [Holds] at holds
      rw [IsKnown, holds]
      exact known
  | var var =>
      obtain ⟨found, here, _⟩ := holds
      exact VarTable.lt_of_get? here

theorem Holds.isNamed {recovery : Recovery} (holds : entry.Holds recovery.tree node) :
    recovery.isNamed entry = false := by
  cases entry with
  | literal literal => rfl
  | var var =>
      obtain ⟨found, here, temporary, _⟩ := holds
      simp [Recovery.isNamed, VarTable.kind, here, temporary]

end StackEntry

namespace IntExpr

/-- The slots of a frame and of the locals above it. -/
structure Locals where
  /-- The stack without operands. -/
  base : SlotStack StackEntry
  /-- The variable of the lowest local. -/
  first : VarId
  /-- Number of locals. -/
  count : Nat
  /-- The uppermost slots are the locals. -/
  reserved : ∀ slot < count, count - slot ≤ base.height ∧
    base.slots[base.height - (count - slot)]? = some (.var (first + slot))

/-- A stack holds entries for some expressions, the first one on top. -/
inductive Piled (catalog : ActionCatalog) (locals : Locals) (tree : ScriptTree) :
    List IntExpr → SlotStack StackEntry → Prop
  /-- No operand waits. -/
  | base : Piled catalog locals tree [] locals.base
  /-- One more operand waits. -/
  | push {value : IntExpr} {values : List IntExpr} {stack : SlotStack StackEntry}
      {entry : StackEntry} {node : NodeId} (below : Piled catalog locals tree values stack)
      (fresh : stack.slots.contains entry = false) (holds : entry.Holds tree node)
      (known : node < tree.size) (spells : value.Spells catalog locals.first tree node) :
      Piled catalog locals tree (value :: values) (stack.push entry)

section Piled

variable {catalog : ActionCatalog} {locals : Locals} {before after tree : ScriptTree}
  {values : List IntExpr} {stack : SlotStack StackEntry}

theorem Piled.grow (piled : Piled catalog locals before values stack) (grows : before.Grows after) :
    Piled catalog locals after values stack := by
  induction piled with
  | base => exact .base
  | push below fresh holds known spells induction =>
      exact .push induction fresh (holds.grow grows) (Nat.lt_of_lt_of_le known grows.size)
        (spells.grow grows _ known)

theorem Piled.known (piled : Piled catalog locals tree values stack)
    (based : ∀ entry ∈ locals.base.slots, entry.IsKnown tree) :
    ∀ entry ∈ stack.slots, entry.IsKnown tree := by
  induction piled with
  | base => exact based
  | push below fresh holds known spells induction =>
      intro entry listed
      rcases Array.mem_push.mp listed with old | rfl
      · exact induction entry old
      · exact holds.isKnown known

theorem Piled.height (piled : Piled catalog locals tree values stack) :
    stack.height = locals.base.height + values.length := by
  induction piled with
  | base => rfl
  | push below fresh holds known spells induction =>
      rw [SlotStack.height_push, induction, List.length_cons]
      rfl

/-- The operand on top. -/
theorem Piled.exists_push {value : IntExpr}
    (piled : Piled catalog locals tree (value :: values) stack) :
    ∃ (below : SlotStack StackEntry) (entry : StackEntry) (node : NodeId),
      stack = below.push entry ∧ Piled catalog locals tree values below ∧
        below.slots.contains entry = false ∧ entry.Holds tree node ∧ node < tree.size ∧
          value.Spells catalog locals.first tree node := by
  cases piled with
  | push below fresh holds known spells =>
      exact ⟨_, _, _, rfl, below, fresh, holds, known, spells⟩

/-- The slots below the operands stay where they are. -/
theorem Piled.getElem? (piled : Piled catalog locals tree values stack) {index : Nat}
    (inside : index < locals.base.height) : stack.slots[index]? = locals.base.slots[index]? := by
  induction piled with
  | base => rfl
  | push below fresh holds known spells induction =>
      have bound := below.height
      rw [← induction, SlotStack.push, Array.getElem?_push_lt (by
        rw [SlotStack.height] at bound
        omega)]
      exact (Array.getElem?_eq_getElem _).symm

end Piled

/-- A recovery outside of every scope. -/
structure IsOutside (body : Body) (recovery : Recovery) : Prop where
  /-- No scope is open. -/
  outside : recovery.scopes = []
  /-- The subroutine has not been left. -/
  going : recovery.finished = false
  /-- Nothing waits to be returned. -/
  owed : recovery.pendingReturn = none
  /-- No variable has just been stepped. -/
  still : ∀ statement target, recovery.track ≠ some (.stepped statement target)
  /-- The statements so far. -/
  root : recovery.tree.node ScriptTree.root = .block body

/-- A state of a recovery between two operations, when entries for some expressions are on the
stack. -/
structure Works (catalog : ActionCatalog) (locals : Locals) (body : Body) (values : List IntExpr)
    (recovery : Recovery) : Prop extends IsOutside body recovery where
  /-- The root is there. -/
  filled : 0 < recovery.tree.size
  /-- No action that has been called has default arguments. -/
  uncut : ∀ id, (recovery.tree.node id).HasNoDefaults catalog
  /-- The frame and the locals are variables. -/
  based : ∀ entry ∈ locals.base.slots, entry.IsKnown recovery.tree
  /-- The variables below the locals are no locals. -/
  frame : ∀ id < locals.first, id < recovery.tree.vars.size ∧
    recovery.tree.vars.kind id ≠ .localVar
  /-- The first statements declare the locals. -/
  declared : ∀ slot < locals.count, ∃ declaration consumed,
    body.children[slot]? = some declaration ∧
    recovery.tree.vars.get? (locals.first + slot) =
      some { kind := .localVar, type := .int, declaration := some declaration, consumed } ∧
    recovery.tree.node declaration = .declaration (locals.first + slot) none false ∧
    declaration < recovery.tree.size
  /-- The operands. -/
  piled : Piled catalog locals recovery.tree values recovery.stack

section Works

variable {catalog : ActionCatalog} {locals : Locals} {body : Body} {values : List IntExpr}
  {value : IntExpr} {recovery : Recovery}

/-- The tree may grow, and statements may be added. -/
theorem Works.extend (works : Works catalog locals body values recovery) {tree : ScriptTree}
    {more : Body} (grows : recovery.tree.Grows tree)
    (uncut : ∀ id, (tree.node id).HasNoDefaults catalog)
    (root : tree.node ScriptTree.root = .block more)
    (longer : ∀ {slot : Nat} {child : NodeId}, body.children[slot]? = some child →
      more.children[slot]? = some child) :
    Works catalog locals more values { recovery with tree } where
  outside := works.outside
  going := works.going
  owed := works.owed
  still := works.still
  root := root
  filled := Nat.lt_of_lt_of_le works.filled grows.size
  uncut := uncut
  based := fun entry listed => (works.based entry listed).grow grows
  frame := by
    intro id below
    obtain ⟨old, other⟩ := works.frame id below
    exact ⟨Nat.lt_of_lt_of_le old grows.count, (grows.kind old).symm ▸ other⟩
  declared := by
    intro slot inside
    obtain ⟨declaration, _, listed, known, node, old⟩ := works.declared slot inside
    obtain ⟨consumed, kept⟩ := grows.var known
    exact ⟨declaration, consumed, longer listed, kept,
      (grows.node old (by rw [node]; rfl)).trans node, Nat.lt_of_lt_of_le old grows.size⟩
  piled := works.piled.grow grows

theorem Works.grow (works : Works catalog locals body values recovery) {tree : ScriptTree}
    (grows : recovery.tree.Grows tree) (uncut : ∀ id, (tree.node id).HasNoDefaults catalog)
    (root : tree.node ScriptTree.root = recovery.tree.node ScriptTree.root) :
    Works catalog locals body values { recovery with tree } :=
  works.extend grows uncut (root.trans works.root) id

theorem Works.addNode (works : Works catalog locals body values recovery) {node : Node}
    (plain : node.HasNoDefaults catalog) :
    Works catalog locals body values
      { recovery with tree := (recovery.tree.add node).1 } := by
  refine works.grow (.add _ node) (ScriptTree.hasNoDefaults_of_lt fun id inside => ?_)
    (ScriptTree.node_add_of_lt node works.filled)
  rw [ScriptTree.size_add] at inside
  rcases Nat.lt_succ_iff_lt_or_eq.mp inside with old | rfl
  · rw [ScriptTree.node_add_of_lt node old]
    exact works.uncut id
  · rw [ScriptTree.node_add_self]
    exact plain

/-- A value on the stack that is nowhere else on it. -/
theorem Works.push (works : Works catalog locals body values recovery) {entry : StackEntry}
    {node : NodeId} (fresh : recovery.stack.slots.contains entry = false)
    (holds : entry.Holds recovery.tree node) (known : node < recovery.tree.size)
    (spells : value.Spells catalog locals.first recovery.tree node) :
    Works catalog locals body (value :: values)
      { recovery with stack := recovery.stack.push entry } :=
  { works with piled := .push works.piled fresh holds known spells }

/-- An intermediate value is new. -/
theorem Works.pushValue (works : Works catalog locals body values recovery) (type : Ty)
    {node : NodeId} (known : node < recovery.tree.size)
    (spells : value.Spells catalog locals.first recovery.tree node) :
    Works catalog locals body (value :: values)
      { recovery with
        tree := { recovery.tree with
          vars := (recovery.tree.vars.add (.temporary type node)).1 }
        stack := recovery.stack.push (.var recovery.tree.vars.size) } := by
  have grows := ScriptTree.Grows.addVar recovery.tree (.temporary type node)
  have grown := works.grow grows works.uncut rfl
  refine grown.push ?_ ⟨_, VarTable.get?_add_self _ _, rfl, rfl⟩ known
    (spells.grow grows _ known)
  rw [← Bool.not_eq_true, Array.contains_iff_mem]
  intro listed
  exact Nat.lt_irrefl _ (works.piled.known works.based _ listed)

/-- What the value on top of the stack spells can be taken. -/
theorem Works.take (works : Works catalog locals body (value :: values) recovery) :
    Recover.Reaches (Recover.takeValue 1) recovery fun node after =>
      Works catalog locals body values after ∧ recovery.tree.Grows after.tree ∧
        node < after.tree.size ∧ value.Spells catalog locals.first after.tree node := by
  obtain ⟨stack, entry, node, top, below, fresh, holds, known, spells⟩ := works.piled.exists_push
  have popped : Works catalog locals body values { recovery with stack } :=
    { works with piled := below }
  cases entry with
  | literal literal =>
      rw [StackEntry.Holds] at holds
      subst holds
      exact ⟨_, _, Recover.takeValue_runs top (Recover.takeEntry_literal top fresh), popped,
        .refl _, known, spells⟩
  | var var =>
      obtain ⟨found, here, temporary, valued⟩ := holds
      have grows := ScriptTree.Grows.useUp recovery.tree var
      exact ⟨_, _, Recover.takeValue_runs top
        (Recover.takeEntry_temporary top fresh here temporary valued),
        popped.grow grows works.uncut rfl, grows, known, spells.grow grows _ known⟩

end Works

section Operations

open Recover

variable {catalog : ActionCatalog} {locals : Locals} {body : Body} {values : List IntExpr}
  {recovery : Recovery}

/-- A literal is pushed as it is. -/
theorem Works.reaches_constant (works : Works catalog locals body values recovery) (value : Int) :
    Reaches (constant (.constant (.int value))) recovery fun _ =>
      Works catalog locals body (.literal value :: values) := by
  have plain : (Node.literal (.int value)).HasNoDefaults catalog := trivial
  have known : recovery.tree.size < (recovery.tree.add (.literal (.int value))).1.size := by simp
  have spells : (literal value).Spells catalog locals.first
      (recovery.tree.add (.literal (.int value))).1 recovery.tree.size := by
    rw [Spells, ScriptTree.node_add_self]
  have fresh : recovery.stack.slots.contains (.literal recovery.tree.size) = false := by
    rw [← Bool.not_eq_true, Array.contains_iff_mem]
    intro listed
    exact Nat.lt_irrefl _ (works.piled.known works.based _ listed)
  refine (addNode_runs _ _).andThen ((push_runs _ _).reaches ?_)
  exact (works.addNode plain).push fresh rfl known spells

/-- An operator on one operand. -/
theorem Works.reaches_unary {operand : IntExpr}
    (works : Works catalog locals body (operand :: values) recovery) (op : UnaryOp) :
    Reaches (Recover.unary (.simple op.opcode .int)) recovery fun _ =>
      Works catalog locals body (.unary op operand :: values) := by
  obtain ⟨inner, between, taken, rest, _, known, spelled⟩ := works.take
  have plain : (Node.unary op inner).HasNoDefaults catalog := trivial
  have spells : (IntExpr.unary op operand).Spells catalog locals.first
      (between.tree.add (.unary op inner)).1 between.tree.size := by
    rw [Spells, ScriptTree.node_add_self]
    exact ⟨inner, known, rfl, spelled.grow (.add _ _) _ known⟩
  have computed : UnaryOp.ofOpcode? (Instruction.simple op.opcode .int).opcode = some op := by
    cases op <;> rfl
  unfold Recover.unary
  rw [computed]
  refine taken.andThen ((addNode_runs _ _).andThen ((pushValue_runs _ _ _).andThen
    ((Runs.done _ _).reaches ?_)))
  exact (rest.addNode plain).pushValue _ (by simp) spells

/-- What the last test was does not matter. -/
theorem Works.compared (works : Works catalog locals body values recovery)
    (comparison : Option Comparison) :
    Works catalog locals body values { recovery with comparison } :=
  { works with }

/-- A value formed of two operands. -/
theorem Works.reaches_combine {left right whole : IntExpr} {instruction : Instruction}
    (works : Works catalog locals body (right :: left :: values) recovery)
    (node : NodeId → NodeId → Node)
    (combines : ∀ one other, binaryNode? instruction.opcode one other = some (node one other))
    (widths : instruction.operandSlots? = some (1, 1)) (width : instruction.resultSlots = 1)
    (plain : ∀ one other, (node one other).HasNoDefaults catalog)
    (spells : ∀ {tree : ScriptTree} {one other : NodeId}, one < tree.size → other < tree.size →
      left.Spells catalog locals.first (tree.add (node one other)).1 one →
      right.Spells catalog locals.first (tree.add (node one other)).1 other →
      whole.Spells catalog locals.first (tree.add (node one other)).1 tree.size) :
    Reaches (Recover.binary instruction) recovery fun _ =>
      Works catalog locals body (whole :: values) := by
  obtain ⟨other, between, other_taken, one_left, _, other_known, other_spelled⟩ := works.take
  obtain ⟨one, last, one_taken, rest, grows, one_known, one_spelled⟩ := one_left.take
  have added := rest.addNode (plain one other)
  have extends_last := ScriptTree.Grows.add last.tree (node one other)
  have other_old := Nat.lt_of_lt_of_le other_known grows.size
  have spelled := spells one_known other_old (one_spelled.grow extends_last _ one_known)
    (other_spelled.grow (grows.trans extends_last) _ other_known)
  unfold Recover.binary
  refine (Runs.reads _).andThen ?_
  rw [widths]
  refine other_taken.andThen (one_taken.andThen ?_)
  rw [combines]
  refine (addNode_runs _ _).andThen ?_
  rw [width]
  refine (pushValue_runs _ _ _).andThen ((Runs.changes _ _).reaches ?_)
  exact (added.pushValue _ (by simp) spelled).compared _

/-- An operator on two operands. -/
theorem Works.reaches_binary {left right : IntExpr}
    (works : Works catalog locals body (right :: left :: values) recovery) (op : BinaryOp) :
    Reaches (Recover.binary (.simple op.opcode .intInt)) recovery fun _ =>
      Works catalog locals body (.binary op left right :: values) := by
  refine works.reaches_combine (.binary op) ?_ ?_ ?_ (fun _ _ => trivial) ?_
  · intro one other
    cases op <;> rfl
  · cases op <;> rfl
  · cases op <;> rfl
  · intro tree one other one_old other_old one_spelled other_spelled
    rw [Spells, ScriptTree.node_add_self]
    exact ⟨one, one_old, other, other_old, rfl, one_spelled, other_spelled⟩

/-- An operator that may have skipped its right operand. -/
theorem Works.reaches_logical {left right : IntExpr}
    (works : Works catalog locals body (right :: left :: values) recovery) (op : LogicalOp) :
    Reaches (Recover.binary (.simple op.opcode .intInt)) recovery fun _ =>
      Works catalog locals body (.logical op left right :: values) := by
  refine works.reaches_combine (.logical op) ?_ ?_ ?_ (fun _ _ => trivial) ?_
  · intro one other
    cases op <;> rfl
  · cases op <;> rfl
  · cases op <;> rfl
  · intro tree one other one_old other_old one_spelled other_spelled
    rw [Spells, ScriptTree.node_add_self]
    exact ⟨one, one_old, other, other_old, rfl, one_spelled, other_spelled⟩

/-- The slot of a local as code addresses it. -/
theorem Works.stackEntries? (works : Works catalog locals body values recovery) {slot : Nat}
    (inside : slot < locals.count) :
    Recover.stackEntries? recovery (-4 * ((locals.count + values.length - slot : Nat) : Int)) 4 =
      some [.var (locals.first + slot)] := by
  obtain ⟨deep, found⟩ := locals.reserved slot inside
  have height := works.piled.height
  have below : locals.count + values.length - slot ≤ recovery.stack.height := by omega
  have index : recovery.stack.height - (locals.count + values.length - slot) =
      locals.base.height - (locals.count - slot) := by omega
  have low : locals.base.height - (locals.count - slot) < locals.base.height := by omega
  have bound : locals.base.height - (locals.count - slot) < recovery.stack.height := by omega
  have entry := works.piled.getElem? low
  rw [found, Array.getElem?_eq_getElem bound] at entry
  rw [Recover.stackEntries?, recovery.stack.range?_slot (by omega) below, Option.map_some, index]
  dsimp only
  rw [recovery.stack.slice_slot bound, Option.some.inj entry]

theorem Works.isNamed (works : Works catalog locals body values recovery) {slot : Nat}
    (inside : slot < locals.count) : recovery.isNamed (.var (locals.first + slot)) = true := by
  obtain ⟨declaration, consumed, _, known, _⟩ := works.declared slot inside
  simp [Recovery.isNamed, VarTable.kind, known]

theorem Works.commit_runs (works : Works catalog locals body values recovery) {slot : Nat}
    (inside : slot < locals.count) : Runs (commit (locals.first + slot)) recovery () recovery := by
  obtain ⟨declaration, consumed, _, known, declares, _⟩ := works.declared slot inside
  have declaring : recovery.tree.vars.declaration? (locals.first + slot) = some declaration := by
    rw [VarTable.declaration?, known]
    rfl
  have free : recovery.tree.vars.parent? (locals.first + slot) = none := by
    rw [VarTable.parent?, known]
    rfl
  exact Recover.commit_runs declaring (by rw [declares]; rfl) free

/-- A use of a local. -/
theorem Works.reaches_read (works : Works catalog locals body values recovery) {slot : Nat}
    (inside : slot < locals.count) {input : RecoveryInput} {command : Nat}
    {track : Option StepTrack} (still : ∀ statement target, track ≠ some (.stepped statement target))
    (here : input.program.instruction command =
      .copySlot (-4 * ((locals.count + values.length - slot : Nat) : Int))) :
    Reaches (copyTop input command track Recover.stackEntries?) recovery fun _ =>
      Works catalog locals body (.read slot :: values) := by
  have plain : (Node.reference (locals.first + slot)).HasNoDefaults catalog := trivial
  have spells : (read slot).Spells catalog locals.first
      (recovery.tree.add (.reference (locals.first + slot))).1 recovery.tree.size := by
    rw [Spells, ScriptTree.node_add_self]
  have value := (works.addNode plain).pushValue
    (recovery.tree.vars.type (locals.first + slot)) (by simp) spells
  have operand : (input.program.instruction command).stackOperand? =
      some (-4 * ((locals.count + values.length - slot : Nat) : Int), 4) := by
    rw [here]
    rfl
  refine (copyTop_runs operand (works.stackEntries? inside)
    (copyEntries_named still (works.isNamed inside) (works.commit_runs inside))).reaches ?_
  exact { value with still := fun _ _ => StepTrack.noConfusion ∘ Option.some.inj }

/-- The arguments of an action, the first one from the top. -/
theorem Works.reaches_arguments (arguments : List IntExpr)
    (works : Works catalog locals body (arguments ++ values) recovery) :
    Reaches ((List.replicate arguments.length Ty.int).mapM actionArgument) recovery
      fun nodes after => Works catalog locals body values after ∧
        recovery.tree.Grows after.tree ∧ (∀ node ∈ nodes, node < after.tree.size) ∧
          AllSpell catalog locals.first after.tree arguments nodes := by
  induction arguments generalizing recovery with
  | nil =>
      refine (Runs.done [] recovery).reaches ⟨works, .refl _, ?_, ?_⟩
      · exact fun node listed => absurd listed List.not_mem_nil
      · rw [AllSpell]
  | cons argument arguments induction =>
      obtain ⟨node, between, taken, rest, before, known, spelled⟩ := works.take
      obtain ⟨nodes, after, others, final, grows, all_known, all_spelled⟩ := induction rest
      have one : Runs (actionArgument .int) recovery node between := by
        unfold actionArgument
        exact Runs.ite_neg (by decide) taken
      rw [List.length_cons, List.replicate_succ, List.mapM_cons]
      refine one.andThen (others.andThen ((Runs.done _ _).reaches
        ⟨final, before.trans grows, ?_, ?_⟩))
      · intro other listed
        rcases List.mem_cons.mp listed with rfl | later
        · exact Nat.lt_of_lt_of_le known grows.size
        · exact all_known other later
      · rw [AllSpell]
        exact ⟨node, nodes, rfl, spelled.grow grows _ known, all_spelled⟩

/-- A call of an action. -/
theorem Works.reaches_action {action : Nat} {arguments : List IntExpr} {name : String}
    (works : Works catalog locals body (arguments ++ values) recovery)
    (listed : catalog.find? action =
      some (.plain name .int (List.replicate arguments.length .int))) :
    Reaches (Recover.action catalog (.callAction action arguments.length)) recovery fun _ =>
      Works catalog locals body (.call action arguments :: values) := by
  obtain ⟨operands, between, taken, rest, _, known, spelled⟩ := works.reaches_arguments
  have params : actionParams catalog action arguments.length =
      List.replicate arguments.length .int := by
    rw [actionParams, ActionCatalog.argumentTypes?, listed]
    simp [ActionSignature.plain]
  have result : (catalog.returnType? action).getD .void = .int := by
    rw [ActionCatalog.returnType?, listed]
    rfl
  have plain : (Node.action action (actionName catalog action) operands).HasNoDefaults catalog := by
    intro signature found value inside
    rw [listed] at found
    rw [← Option.some.inj found] at inside
    obtain ⟨_, _, rfl⟩ := List.mem_map.mp inside
    rfl
  have spells : (IntExpr.call action arguments).Spells catalog locals.first
      (between.tree.add (.action action (actionName catalog action) operands)).1
      between.tree.size := by
    rw [Spells, ScriptTree.node_add_self]
    exact ⟨operands, known, rfl, spelled.grow (.add _ _) _ known⟩
  unfold Recover.action
  rw [show (Instruction.callAction action arguments.length).actionOperand? =
    some (action, arguments.length) from rfl]
  dsimp only
  rw [params, result]
  refine taken.andThen ((addNode_runs _ _).andThen ?_)
  have wide : ¬Ty.int.slots = 0 := by decide
  rw [if_neg wide]
  refine (pushValue_runs _ _ _).andThen ((Runs.done _ _).reaches ?_)
  exact (rest.addNode plain).pushValue _ (by simp) spells

end Operations

/-- Every instruction is live and every jump skips an operand. -/
structure IsStraight (input : RecoveryInput) : Prop where
  /-- The analysis found nothing dead. -/
  live : input.table.AllLive input.program
  /-- Jumps are short circuits. -/
  skips : ∀ command < input.program.commandCount, (input.program.opcode command).isJump →
    Liveness.skipsOperand input.program command

section Visits

open Recover

variable {input : RecoveryInput} {locals : Locals} {body : Body} {values : List IntExpr}
  {before after : Recovery} {first position : Nat}

theorem IsStraight.opcode_ne (straight : IsStraight input) {command : Nat}
    (inside : command < input.program.commandCount) : input.program.opcode command ≠ .jump := by
  intro jumps
  have skips := straight.skips command inside (by rw [jumps]; rfl)
  rw [Liveness.skipsOperand, jumps] at skips
  exact absurd skips Bool.false_ne_true

/-- Before an instruction nothing closes and nothing opens. -/
theorem IsOutside.visits (outside : IsOutside body before) (straight : IsStraight input)
    (inside : first < input.program.commandCount)
    (executes : Runs (execute input first before.track)
      { before with position := input.program.position first, track := none } () after) :
    Visits input first 1 before after := by
  refine .single outside.going (straight.live.alive first inside) (visit_runs
    (closeScopes_outside _ outside.outside ?_)
    (openLoops_none (straight.live.origins first inside) ?_) executes)
  · rw [outside.root]
    rfl
  · intro origin listed jumps
    have bound := List.mem_range.mp (List.mem_filter.mp listed).1
    exact absurd jumps (straight.opcode_ne bound)

theorem IsOutside.exists_visits (outside : IsOutside body before) (straight : IsStraight input)
    (inside : first < input.program.commandCount) {goal : Recovery → Prop}
    (executes : Reaches (execute input first before.track)
      { before with position := input.program.position first, track := none } fun _ => goal) :
    ∃ after, Visits input first 1 before after ∧ goal after := by
  obtain ⟨_, after, executed, holds⟩ := executes
  exact ⟨after, outside.visits straight inside executed, holds⟩

/-- The state in which an instruction is executed. -/
theorem Works.entered (works : Works input.catalog locals body values before) (position : Nat) :
    Works input.catalog locals body values { before with position, track := none } :=
  { works with still := fun _ _ => Option.some_ne_none _ ∘ Eq.symm }

theorem Works.visits (works : Works input.catalog locals body values before)
    (straight : IsStraight input) (inside : first < input.program.commandCount)
    {goal : Recovery → Prop}
    (executes : ∀ recovery, Works input.catalog locals body values recovery →
      Reaches (execute input first before.track) recovery fun _ => goal) :
    ∃ after, Visits input first 1 before after ∧ goal after :=
  works.toIsOutside.exists_visits straight inside (executes _ (works.entered _))

theorem Works.visits_literal {value : Int} (works : Works input.catalog locals body values before)
    (straight : IsStraight input)
    (spans : input.program.Spans first position [.constant (.int value)]) :
    ∃ after, Visits input first 1 before after ∧
      Works input.catalog locals body (.literal value :: values) after := by
  refine works.visits straight (Nat.lt_of_succ_lt spans.inside) fun recovery entered => ?_
  have executed : execute input first before.track = constant (.constant (.int value)) := by
    simp only [execute, spans.head.1]
    rfl
  rw [executed]
  exact entered.reaches_constant value

theorem Works.visits_read {slot : Nat} (works : Works input.catalog locals body values before)
    (inside : slot < locals.count) (straight : IsStraight input)
    (spans : input.program.Spans first position
      [.copySlot (-4 * ((locals.count + values.length - slot : Nat) : Int))]) :
    ∃ after, Visits input first 1 before after ∧
      Works input.catalog locals body (.read slot :: values) after := by
  refine works.visits straight (Nat.lt_of_succ_lt spans.inside) fun recovery entered => ?_
  have executed : execute input first before.track =
      copyTop input first before.track Recover.stackEntries? := by
    simp only [execute, spans.head.1]
    rfl
  rw [executed]
  exact entered.reaches_read inside works.still spans.head.1

theorem Works.visits_unary {operand : IntExpr} {op : UnaryOp}
    (works : Works input.catalog locals body (operand :: values) before)
    (straight : IsStraight input)
    (spans : input.program.Spans first position [.simple op.opcode .int]) :
    ∃ after, Visits input first 1 before after ∧
      Works input.catalog locals body (.unary op operand :: values) after := by
  refine works.visits straight (Nat.lt_of_succ_lt spans.inside) fun recovery entered => ?_
  have executed : execute input first before.track = Recover.unary (.simple op.opcode .int) := by
    simp only [execute, spans.head.1]
    cases op <;> rfl
  rw [executed]
  exact entered.reaches_unary op

theorem Works.visits_binary {left right : IntExpr} {op : BinaryOp}
    (works : Works input.catalog locals body (right :: left :: values) before)
    (straight : IsStraight input)
    (spans : input.program.Spans first position [.simple op.opcode .intInt]) :
    ∃ after, Visits input first 1 before after ∧
      Works input.catalog locals body (.binary op left right :: values) after := by
  refine works.visits straight (Nat.lt_of_succ_lt spans.inside) fun recovery entered => ?_
  have executed : execute input first before.track =
      Recover.binary (.simple op.opcode .intInt) := by
    simp only [execute, spans.head.1]
    cases op <;> rfl
  rw [executed]
  exact entered.reaches_binary op

theorem Works.visits_logical {left right : IntExpr} {op : LogicalOp}
    (works : Works input.catalog locals body (right :: left :: values) before)
    (straight : IsStraight input)
    (spans : input.program.Spans first position [.simple op.opcode .intInt]) :
    ∃ after, Visits input first 1 before after ∧
      Works input.catalog locals body (.logical op left right :: values) after := by
  refine works.visits straight (Nat.lt_of_succ_lt spans.inside) fun recovery entered => ?_
  have executed : execute input first before.track =
      Recover.binary (.simple op.opcode .intInt) := by
    simp only [execute, spans.head.1]
    cases op <;> rfl
  rw [executed]
  exact entered.reaches_logical op

theorem Works.visits_action {action : Nat} {arguments : List IntExpr} {name : String}
    (works : Works input.catalog locals body (arguments ++ values) before)
    (listed : input.catalog.find? action =
      some (.plain name .int (List.replicate arguments.length .int)))
    (straight : IsStraight input)
    (spans : input.program.Spans first position [.callAction action arguments.length]) :
    ∃ after, Visits input first 1 before after ∧
      Works input.catalog locals body (.call action arguments :: values) after := by
  refine works.visits straight (Nat.lt_of_succ_lt spans.inside) fun recovery entered => ?_
  have executed : execute input first before.track =
      Recover.action input.catalog (.callAction action arguments.length) := by
    simp only [execute, spans.head.1]
    rfl
  rw [executed]
  exact entered.reaches_action listed

/-- A jump that skips an operand tests a copy, which it takes away. -/
theorem Works.visits_skip {value : IntExpr} {op : LogicalOp} {distance : Int}
    (works : Works input.catalog locals body (value :: values) before)
    (straight : IsStraight input)
    (spans : input.program.Spans first position [.copySlot (-4), .jump op.skipper distance]) :
    ∃ after, Visits input first 2 before after ∧
      Works input.catalog locals body (value :: values) after := by
  obtain ⟨stack, entry, node, top, _, _, holds, _⟩ := works.piled.exists_push
  have bound : first + 2 < input.program.commandCount := spans.inside
  have inside : first < input.program.commandCount := by omega
  have jump_inside : first + 1 < input.program.commandCount := by omega
  let copied : Recovery := { before with
    position := input.program.position first
    track := none
    stack := before.stack.push entry }
  have copies : Visits input first 1 before copied := by
    refine works.toIsOutside.visits straight inside ?_
    have executed : execute input first before.track =
        copyTop input first before.track Recover.stackEntries? := by
      simp only [execute, spans.head.1]
      rfl
    have operand : (input.program.instruction first).stackOperand? = some (-4, 4) := by
      rw [spans.head.1]
      rfl
    rw [executed]
    exact copyTop_runs operand (stackEntries?_top top)
      (copyEntries_temporary works.still (StackEntry.Holds.isNamed holds))
  have outside : IsOutside body copied :=
    { works with still := fun _ _ => Option.some_ne_none _ ∘ Eq.symm }
  have skips : Visits input (first + 1) 1 copied
      { before with position := input.program.position (first + 1), track := none } := by
    refine outside.visits straight jump_inside ?_
    have skips := straight.skips (first + 1) jump_inside (by
      rw [Program.opcode, spans.tail.head.1]
      cases op <;> rfl)
    have state := straight.live.state (first + 1) jump_inside
    rw [if_pos skips] at state
    have dropped := onStack_runs (·.drop)
      { copied with position := input.program.position (first + 1), track := none }
    rw [show copied.stack = before.stack.push entry from rfl, SlotStack.drop_push] at dropped
    simp only [execute, spans.tail.head.1]
    cases op with
    | and => exact (Runs.lift state _).bind (Runs.ite_pos rfl dropped)
    | or => exact (Runs.lift state _).bind (Runs.ite_pos rfl dropped)
  exact ⟨_, copies.append skips, works.entered _⟩

end Visits

end IntExpr
end NwScript
