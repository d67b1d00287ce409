import NwScript.Proofs.RecoveryMoves
import NwScript.Proofs.RecoverySteps

/-!
# Sound recoveries

A state of a recovery is sound if its tree is and everything it keeps record of refers to nodes and
variables of the right kind.  A recovery plays a list of actions without a result: between two of them
it makes moves, and each of them becomes a statement of the innermost open node at once.
-/

namespace NwScript

namespace ScriptTree

/-- What a slot may hold: a value, or a variable without members. -/
def IsEntry (catalog : ActionCatalog) (tree : ScriptTree) : StackEntry → Prop
  | .literal node => tree.IsValue catalog node
  | .var id => id < tree.vars.size ∧ tree.vars.members id = []

theorem Extends.isEntry {catalog : ActionCatalog} {before after : ScriptTree} {entry : StackEntry}
    (extension : before.Extends after) (sound : before.IsEntry catalog entry) :
    after.IsEntry catalog entry := by
  cases entry with
  | literal node => exact extension.isValue sound
  | var id =>
      obtain ⟨inside, single⟩ := sound
      exact ⟨Nat.lt_of_lt_of_le inside extension.vars.size,
        (extension.vars.members id inside).trans single⟩

end ScriptTree

namespace Recovery

/-- Everything that a state of a recovery refers to is there. -/
structure IsSound (catalog : ActionCatalog) (recovery : Recovery) : Prop where
  /-- The tree is sound. -/
  tree : recovery.tree.IsSound catalog
  /-- Slots hold values and variables. -/
  stack : ∀ entry ∈ recovery.stack.slots, recovery.tree.IsEntry catalog entry
  /-- Globals are variables. -/
  globals : ∀ var ∈ recovery.globals, recovery.tree.IsEntry catalog (.var var)
  /-- A value waits for the return. -/
  pendingReturn : ∀ value, recovery.pendingReturn = some value → recovery.tree.IsValue catalog value
  /-- Deferred arguments are values. -/
  closures : ∀ closure ∈ recovery.closures, recovery.tree.IsValue catalog closure
  /-- A switch dispatches on a value or a variable. -/
  dispatch : ∀ dispatch, recovery.dispatch = some dispatch →
    recovery.tree.IsEntry catalog dispatch.subject
  /-- Values and variables are compared. -/
  comparison : ∀ comparison, recovery.comparison = some comparison →
    recovery.tree.IsEntry catalog comparison.subject
  /-- The last statement is a change by one if it is recorded as one. -/
  track : ∀ statement target, recovery.track = some (.stepped statement target) →
    recovery.tree.IsStep statement
  /-- Open nodes own statements. -/
  scopes : ∀ scope ∈ recovery.scopes, (recovery.tree.node scope.node).body?.isSome

variable {catalog : ActionCatalog} {recovery : Recovery} {tree : ScriptTree}

theorem IsSound.current (sound : recovery.IsSound catalog) :
    (recovery.tree.node recovery.current).body?.isSome := by
  unfold Recovery.current
  split
  · rename_i scope _ open_scopes
    exact sound.scopes scope (open_scopes ▸ List.mem_cons_self)
  · exact sound.tree.rooted

/-- A larger sound tree serves as well. -/
theorem IsSound.extend (sound : recovery.IsSound catalog) (extension : recovery.tree.Extends tree)
    (sound_tree : tree.IsSound catalog) : { recovery with tree }.IsSound catalog where
  tree := sound_tree
  stack := fun entry listed => extension.isEntry (sound.stack entry listed)
  globals := fun var listed => extension.isEntry (sound.globals var listed)
  pendingReturn := fun value held => extension.isValue (sound.pendingReturn value held)
  closures := fun closure listed => extension.isValue (sound.closures closure listed)
  dispatch := fun dispatch held => extension.isEntry (sound.dispatch dispatch held)
  comparison := fun comparison held => extension.isEntry (sound.comparison comparison held)
  track := fun statement target held => extension.isStep (sound.track statement target held)
  scopes := fun scope listed => by
    have owns := sound.scopes scope listed
    rw [extension.owns (ScriptTree.lt_of_body? owns)]
    exact owns

end Recovery

/-- What the moves of a recovery may rely on. -/
structure Terms where
  /-- The actions. -/
  catalog : ActionCatalog
  /-- Deferred arguments may begin. -/
  defers : Prop
  /-- The subroutine may end. -/
  ends : Prop

/-- A small change of the state of a recovery. -/
inductive Move (terms : Terms) (before : Recovery) : Recovery → Prop
  /-- The tree changes. -/
  | edit {tree : ScriptTree} (edit : before.tree.Edit terms.catalog tree) :
      Move terms before { before with tree }
  /-- A statement is attached to the innermost open node. -/
  | emit {statement : NodeId} (unplaced : before.tree.IsUnplaced statement)
      (different : before.current ≠ statement) :
      Move terms before { before with tree := before.tree.append before.current statement }
  /-- Something is recorded. -/
  | note {after : Recovery} (tree : after.tree = before.tree) (scopes : after.scopes = before.scopes)
      (globals : after.globals = before.globals) (finished : after.finished = before.finished)
      (sound : before.IsSound terms.catalog → after.IsSound terms.catalog) : Move terms before after
  /-- A statement of the innermost open node is opened. -/
  | enter {scope : Scope} (held : scope.node ∈ before.tree.children before.current)
      (owns : (before.tree.node scope.node).body?.isSome) :
      Move terms before { before with scopes := scope :: before.scopes }
  /-- The innermost scope is closed. -/
  | leave {scope : Scope} {outer : List Scope} (scopes : before.scopes = scope :: outer) :
      Move terms before { before with scopes := outer }
  /-- A deferred argument begins. -/
  | defer {body : Body} (height : Nat) (empty : body.children = []) (allowed : terms.defers) :
      Move terms before { before with
        tree := (before.tree.add (.closure body)).1
        scopes := ⟨before.tree.size, height⟩ :: before.scopes }
  /-- Nothing follows that belongs to the subroutine. -/
  | finish (allowed : terms.ends) : Move terms before { before with finished := true }

namespace ScriptTree

/-- A call of an action and the statement of it, which stands nowhere yet, are added. -/
def stated (tree : ScriptTree) (id : Nat) (name : String) (arguments : List NodeId) : ScriptTree :=
  ((tree.add (.action id name arguments)).1.add (.statement tree.size)).1

variable {catalog : ActionCatalog} {tree : ScriptTree} (id : Nat) (name : String)
  {arguments : List NodeId}

@[simp]
theorem size_stated : (tree.stated id name arguments).size = tree.size + 2 := by
  rw [stated, size_add, size_add]

theorem node_stated_self :
    (tree.stated id name arguments).node (tree.size + 1) = .statement tree.size := by
  rw [stated, ← size_add tree (.action id name arguments), node_add_self]

theorem Extends.stated : tree.Extends (tree.stated id name arguments) :=
  (Extends.add _ _).trans (.add _ _)

theorem isSound_stated (sound : tree.IsSound catalog)
    (values : ∀ argument ∈ arguments, tree.IsValue catalog argument) :
    (tree.stated id name arguments).IsSound catalog := by
  have called := sound.add (.action id name arguments)
    (fun operand used => .inl (values operand used)) (fun _ held => absurd held List.not_mem_nil)
  refine called.add _ (fun operand used => ?_) (fun _ held => absurd held List.not_mem_nil)
  obtain rfl := List.mem_singleton.mp used
  exact .inr ⟨by simp, by rw [node_add_self]; rfl, rfl⟩

end ScriptTree

/-- An action without a result becomes a statement. -/
structure Commands (catalog : ActionCatalog) (id : Nat) (before after : Recovery) : Prop where
  /-- The action has no result. -/
  plain : ((catalog.returnType? id).getD .void).slots = 0
  /-- The call and the statement are added. -/
  added : ∃ name arguments, (∀ argument ∈ arguments, before.tree.IsValue catalog argument) ∧
    after = { before with
      tree := (before.tree.stated id name arguments).append before.current (before.tree.size + 1) }

/-- Moves and actions without a result that become statements, in the order of these. -/
inductive Plays (terms : Terms) (before : Recovery) : List Nat → Recovery → Prop
  /-- Nothing happens. -/
  | refl : Plays terms before [] before
  /-- A move follows. -/
  | move {ids : List Nat} {middle after : Recovery} (former : Plays terms before ids middle)
      (move : Move terms middle after) : Plays terms before ids after
  /-- An action without a result follows. -/
  | command {ids : List Nat} {id : Nat} {middle after : Recovery}
      (former : Plays terms before ids middle) (command : Commands terms.catalog id middle after) :
      Plays terms before (ids ++ [id]) after

section Playing

variable {terms : Terms} {before middle after : Recovery} {ids : List Nat} {id : Nat}

theorem Move.isExtension (move : Move terms before after) : before.tree.Extends after.tree := by
  cases move with
  | edit edit => exact edit.isExtension
  | emit => exact (ScriptTree.Rearranges.append _ _ _).isExtension
  | note tree => exact tree ▸ .refl _
  | defer => exact .add _ _
  | _ => exact .refl _

theorem Move.isSound (move : Move terms before after) (sound : before.IsSound terms.catalog) :
    after.IsSound terms.catalog := by
  have extension := move.isExtension
  cases move with
  | edit edit => exact sound.extend extension (edit.isSound sound.tree)
  | emit unplaced different =>
      exact sound.extend extension ((ScriptTree.Rearranges.append _ _ _).isSound sound.tree
        (by simpa using ⟨unplaced.inside, unplaced.statement⟩))
  | note tree scopes globals finished kept => exact kept sound
  | enter held owns => exact { sound with scopes := List.forall_mem_cons.mpr ⟨owns, sound.scopes⟩ }
  | leave scopes =>
      exact { sound with
        scopes := fun scope listed => sound.scopes scope (scopes ▸ List.mem_cons_of_mem _ listed) }
  | @defer body height empty allowed =>
      have sound_tree : (before.tree.add (.closure body)).1.IsSound terms.catalog := by
        refine sound.tree.add _ (fun operand used => absurd used List.not_mem_nil) fun child held => ?_
        rw [Node.statements, Node.body?, Option.map_some, Option.getD_some, empty] at held
        exact absurd held List.not_mem_nil
      have grown := sound.extend extension sound_tree
      refine { grown with scopes := List.forall_mem_cons.mpr ⟨?_, grown.scopes⟩ }
      rw [ScriptTree.node_add_self]
      rfl
  | finish => exact { sound with }

theorem Commands.isExtension (commands : Commands terms.catalog id before after) :
    before.tree.Extends after.tree := by
  obtain ⟨name, arguments, values, rfl⟩ := commands.added
  exact (ScriptTree.Extends.stated _ _).trans (ScriptTree.Rearranges.append _ _ _).isExtension

/-- A move changes the variables by an edit or not at all. -/
theorem Move.vars_cases (move : Move terms before after) :
    ScriptTree.VarEdit terms.catalog before.tree after.tree.vars ∨
      after.tree.vars = before.tree.vars := by
  cases move with
  | edit edit => exact edit.vars_cases
  | emit => exact .inr (ScriptTree.Rearranges.append _ _ _).vars
  | note tree => exact .inr (congrArg _ tree)
  | defer => exact .inr (ScriptTree.vars_add _ _)
  | _ => exact .inr rfl

theorem Commands.vars (commands : Commands terms.catalog id before after) :
    after.tree.vars = before.tree.vars := by
  obtain ⟨name, arguments, _, rfl⟩ := commands.added
  rw [(ScriptTree.Rearranges.append _ _ _).vars, ScriptTree.stated, ScriptTree.vars_add,
    ScriptTree.vars_add]

theorem Commands.isSound (commands : Commands terms.catalog id before after)
    (sound : before.IsSound terms.catalog) : after.IsSound terms.catalog := by
  have extension := commands.isExtension
  obtain ⟨name, arguments, values, rfl⟩ := commands.added
  refine sound.extend extension ((ScriptTree.Rearranges.append _ _ _).isSound
    (ScriptTree.isSound_stated id name sound.tree values) fun child new => ?_)
  rw [List.mem_singleton.mp new, ScriptTree.node_stated_self]
  exact ⟨by simp, rfl⟩

theorem Plays.isExtension (plays : Plays terms before ids after) :
    before.tree.Extends after.tree := by
  induction plays with
  | refl => exact .refl _
  | move _ move induction => exact induction.trans move.isExtension
  | command _ command induction => exact induction.trans command.isExtension

theorem Plays.isSound (plays : Plays terms before ids after) (sound : before.IsSound terms.catalog) :
    after.IsSound terms.catalog := by
  induction plays with
  | refl => exact sound
  | move _ move induction => exact move.isSound induction
  | command _ command induction => exact command.isSound induction

/-- What every edit of the variables keeps, a recovery keeps. -/
theorem Plays.vars_induction {Good : VarTable → Prop}
    (keeps : ∀ {tree vars}, ScriptTree.VarEdit terms.catalog tree vars → Good tree.vars → Good vars)
    (plays : Plays terms before ids after) (good : Good before.tree.vars) : Good after.tree.vars := by
  induction plays with
  | refl => exact good
  | move _ move induction =>
      rcases move.vars_cases with edit | same
      · exact keeps edit induction
      · rwa [same]
  | command _ command induction => rwa [command.vars]

theorem Plays.trans {more : List Nat} (first : Plays terms before ids middle)
    (second : Plays terms middle more after) : Plays terms before (ids ++ more) after := by
  induction second with
  | refl => exact (List.append_nil ids).symm ▸ first
  | move _ move induction => exact induction.move move
  | command _ command induction =>
      rw [← List.append_assoc]
      exact induction.command command

theorem Plays.edits {tree : ScriptTree} (edits : before.tree.Edits terms.catalog tree) :
    Plays terms before [] { before with tree } := by
  induction edits with
  | refl => exact .refl
  | tail _ edit induction => exact induction.move (.edit edit)

theorem Plays.edit {tree : ScriptTree} (edit : before.tree.Edit terms.catalog tree) :
    Plays terms before [] { before with tree } :=
  .edits (.single edit)

/-- Other slots are recorded. -/
theorem Plays.slots {stack : SlotStack StackEntry} (entries : before.IsSound terms.catalog →
    ∀ entry ∈ stack.slots, before.tree.IsEntry terms.catalog entry) :
    Plays terms before [] { before with stack } :=
  .move .refl (.note rfl rfl rfl rfl fun sound => { sound with stack := entries sound })

theorem Plays.isValue (plays : Plays terms before ids after) {value : NodeId}
    (sound : before.tree.IsValue terms.catalog value) : after.tree.IsValue terms.catalog value :=
  plays.isExtension.isValue sound

theorem Plays.isEntry (plays : Plays terms before ids after) {entry : StackEntry}
    (sound : before.tree.IsEntry terms.catalog entry) : after.tree.IsEntry terms.catalog entry :=
  plays.isExtension.isEntry sound

end Playing

namespace Recover

variable {α β : Type}

/-- A run of two steps is a run of each. -/
theorem Runs.split {step : Recover α} {next : α → Recover β} {before after : Recovery} {result : β}
    (whole : Runs (step >>= next) before result after) :
    ∃ value middle, Runs step before value middle ∧ Runs (next value) middle result after := by
  cases begun : step.run before with
  | error fault =>
      rw [Runs, StateT.run_bind, begun] at whole
      cases whole
  | ok pair => exact ⟨pair.1, pair.2, begun, whole.rest begun⟩

/-- From a sound state a step makes moves only, and its result is good. -/
def Leads (terms : Terms) (step : Recover α) (before : Recovery) (Good : α → Recovery → Prop) :
    Prop :=
  before.IsSound terms.catalog → ∀ {value after}, Runs step before value after →
    Plays terms before [] after ∧ Good value after

/-- From a sound state a step makes moves only. -/
abbrev Goes (terms : Terms) (step : Recover α) (before : Recovery) : Prop :=
  Leads terms step before fun _ _ => True

/-- From a sound state a step makes moves only and gives a value. -/
abbrev Yields (terms : Terms) (step : Recover NodeId) (before : Recovery) : Prop :=
  Leads terms step before fun value after => after.tree.IsValue terms.catalog value

section Leading

variable {terms : Terms} {before middle : Recovery} {step : Recover α} {next : α → Recover β}
  {Good : β → Recovery → Prop}

theorem Leads.sound {Good : α → Recovery → Prop}
    (leads : before.IsSound terms.catalog → Leads terms step before Good) :
    Leads terms step before Good :=
  fun sound => leads sound sound

theorem Leads.mono {Good Better : α → Recovery → Prop} (leads : Leads terms step before Better)
    (implies : ∀ {value after}, Better value after → Good value after) :
    Leads terms step before Good :=
  fun sound _ _ runs => (leads sound runs).imp_right implies

theorem Leads.goes {Good : α → Recovery → Prop} (leads : Leads terms step before Good) :
    Goes terms step before :=
  leads.mono fun _ => trivial

theorem Leads.done {Good : α → Recovery → Prop} {value : α} (good : Good value before) :
    Leads terms (pure value) before Good := by
  rintro _ _ _ ⟨⟩
  exact ⟨.refl, good⟩

/-- A step that fails leads nowhere. -/
theorem Leads.fail {Good : α → Recovery → Prop} (fault : Fault) :
    Leads terms (throw fault : Recover α) before Good := by
  rintro _ _ _ ⟨⟩

theorem Leads.ite {Good : α → Recovery → Prop} {condition : Prop} [Decidable condition]
    {left right : Recover α} (holds : condition → Leads terms left before Good)
    (fails : ¬condition → Leads terms right before Good) :
    Leads terms (if condition then left else right) before Good := by
  split
  · exact holds ‹_›
  · exact fails ‹_›

theorem Leads.bind {Mid : α → Recovery → Prop} (first : Leads terms step before Mid)
    (second : ∀ {value middle}, Plays terms before [] middle → Mid value middle →
      Leads terms (next value) middle Good) : Leads terms (step >>= next) before Good := by
  intro sound result after runs
  obtain ⟨value, middle, begun, ended⟩ := runs.split
  obtain ⟨earlier, good⟩ := first sound begun
  obtain ⟨later, better⟩ := second earlier good (earlier.isSound sound) ended
  exact ⟨earlier.trans later, better⟩

/-- A step with a known outcome. -/
theorem Leads.via {value : α} (runs : Runs step before value middle)
    (plays : Plays terms before [] middle) (rest : Leads terms (next value) middle Good) :
    Leads terms (step >>= next) before Good := by
  intro sound result after whole
  obtain ⟨later, good⟩ := rest (plays.isSound sound) (whole.rest runs)
  exact ⟨plays.trans later, good⟩

/-- A last step with a known outcome. -/
theorem Leads.last {Good : α → Recovery → Prop} {value : α} (runs : Runs step before value middle)
    (plays : Plays terms before [] middle) (good : Good value middle) :
    Leads terms step before Good := by
  intro _ result after whole
  obtain ⟨rfl, rfl⟩ := Prod.mk.inj (Except.ok.inj (runs.symm.trans whole))
  exact ⟨plays, good⟩

theorem Leads.reads {next : Recovery → Recover β} (rest : Leads terms (next before) before Good) :
    Leads terms (get >>= next) before Good :=
  .via (.reads before) .refl rest

theorem Leads.lift {outcome : Except Fault α}
    (rest : ∀ value, outcome = .ok value → Leads terms (next value) before Good) :
    Leads terms ((liftM outcome : Recover α) >>= next) before Good := by
  cases done : outcome with
  | ok value => exact .via (.lift rfl before) .refl (rest value done)
  | error fault =>
      intro _ _ _ runs
      cases runs

/-- From a sound state a step plays some actions. -/
def Acts (terms : Terms) (step : Recover Unit) (before : Recovery) (ids : List Nat) : Prop :=
  before.IsSound terms.catalog → ∀ {after}, Runs step before () after →
    Plays terms before ids after

variable {ids more : List Nat}

theorem Goes.acts {step : Recover Unit} (goes : Goes terms step before) :
    Acts terms step before [] :=
  fun sound _ runs => (goes sound runs).1

theorem Leads.andThen {Mid : α → Recovery → Prop} {next : α → Recover Unit}
    (first : Leads terms step before Mid)
    (second : ∀ {value middle}, Plays terms before [] middle → Mid value middle →
      Acts terms (next value) middle ids) : Acts terms (step >>= next) before ids := by
  intro sound after runs
  obtain ⟨value, middle, begun, ended⟩ := runs.split
  obtain ⟨earlier, good⟩ := first sound begun
  exact earlier.trans (second earlier good (earlier.isSound sound) ended)

theorem Acts.sound {step : Recover Unit}
    (acts : before.IsSound terms.catalog → Acts terms step before ids) :
    Acts terms step before ids :=
  fun sound => acts sound sound

theorem Acts.via {value : α} {next : α → Recover Unit} (runs : Runs step before value middle)
    (plays : Plays terms before [] middle) (rest : Acts terms (next value) middle ids) :
    Acts terms (step >>= next) before ids :=
  fun sound _ whole => plays.trans (rest (plays.isSound sound) (whole.rest runs))

theorem Acts.bind {step : Recover Unit} {next : Unit → Recover Unit}
    (first : Acts terms step before ids)
    (second : ∀ {middle}, Plays terms before ids middle → Acts terms (next ()) middle more) :
    Acts terms (step >>= next) before (ids ++ more) := by
  intro sound after runs
  obtain ⟨_, middle, begun, ended⟩ := runs.split
  have earlier := first sound begun
  exact earlier.trans (second earlier (earlier.isSound sound) ended)

end Leading

section Steps

variable {terms : Terms} {before : Recovery}

theorem unclassified_leads {Good : α → Recovery → Prop} (obstacle : Obstacle) :
    Leads terms (unclassified obstacle : Recover α) before Good :=
  .reads (.fail _)

/-- A node of values is added. -/
theorem addNode_leads {node : Node}
    (values : ∀ operand ∈ node.operands, before.tree.IsValue terms.catalog operand)
    (plain : node.isCommand terms.catalog = false)
    (bare : node.statements = [] ∧ node.isClosure = false) :
    Leads terms (addNode node) before fun id after =>
      id = before.tree.size ∧ after = { before with tree := (before.tree.add node).1 } :=
  .last (addNode_runs node before) (.edit (.add values plain (.inl bare))) ⟨rfl, rfl⟩

/-- An expression of values is a value. -/
theorem addNode_yields {node : Node} (expression : node.isExpression)
    (values : ∀ operand ∈ node.operands, before.tree.IsValue terms.catalog operand)
    (plain : node.isCommand terms.catalog = false)
    (bare : node.statements = [] ∧ node.isClosure = false) : Yields terms (addNode node) before := by
  refine (addNode_leads values plain bare).mono ?_
  rintro _ _ ⟨rfl, rfl⟩
  exact ScriptTree.isValue_add _ _ expression plain

theorem unknownOperand_yields : Yields terms unknownOperand before :=
  addNode_yields rfl (fun _ used => absurd used List.not_mem_nil) rfl ⟨rfl, rfl⟩

theorem reference_yields (var : VarId) : Yields terms (addNode (.reference var)) before :=
  addNode_yields rfl (fun _ used => absurd used List.not_mem_nil) rfl ⟨rfl, rfl⟩

theorem duplicate_runs (id : NodeId) (recovery : Recovery) :
    Runs (duplicate id) recovery (recovery.tree.duplicate id).2
      { recovery with tree := (recovery.tree.duplicate id).1 } := rfl

theorem duplicate_yields {id : NodeId}
    (value : before.IsSound terms.catalog → before.tree.IsValue terms.catalog id) :
    Yields terms (duplicate id) before := by
  refine .sound fun sound => ?_
  obtain ⟨edits, copy⟩ :=
    ScriptTree.duplicateFrom_copies sound.tree (before.tree.size + 1) (value sound)
  exact .last (duplicate_runs id before) (.edits edits) copy

end Steps

end Recover
end NwScript
