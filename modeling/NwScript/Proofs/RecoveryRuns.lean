import NwScript.Proofs.ControlMoves
import NwScript.Proofs.RecoveryTasks
import NwScript.Proofs.WalkTotal

/-!
# Runs of a recovery

A recovery begins in a sound state, and a run plays the actions without a result that the live
instructions call, in their order: only the last live return ends a function.  So every state that it
passes through is sound.
-/

namespace NwScript

open Recover

namespace Frame

variable {catalog : ActionCatalog} {tree : ScriptTree} {vars : VarTable} {slots : List VarId}

/-- Variables are added to a tree, and some of those without members are slots. -/
structure Adds (catalog : ActionCatalog) (tree : ScriptTree) (vars : VarTable)
    (slots : List VarId) : Prop where
  /-- The variables change step by step. -/
  edits : tree.Edits catalog { tree with vars }
  /-- Slots have no members. -/
  leaves : ∀ slot ∈ slots, slot < vars.size ∧ vars.members slot = []

theorem Adds.trans {more : VarTable} {others : List VarId} (first : Adds catalog tree vars slots)
    (second : Adds catalog { tree with vars } more others) :
    Adds catalog tree more (slots ++ others) := by
  refine ⟨first.edits.trans second.edits, fun slot listed => ?_⟩
  rcases List.mem_append.mp listed with old | new
  · obtain ⟨inside, single⟩ := first.leaves slot old
    have grows := second.edits.isExtension.vars
    exact ⟨Nat.lt_of_lt_of_le inside grows.size, (grows.members slot inside).trans single⟩
  · exact second.leaves slot new

theorem Adds.subset {others : List VarId} (adds : Adds catalog tree vars slots)
    (fewer : others ⊆ slots) : Adds catalog tree vars others :=
  ⟨adds.edits, fun slot listed => adds.leaves slot (fewer listed)⟩

theorem adds_add (tree : ScriptTree) (kind : VarKind) (type : Ty) :
    Adds catalog tree (tree.vars.add { kind, type }).1 [tree.vars.size] := by
  refine ⟨.single (.vars (.add (fun _ none => by cases none) rfl rfl rfl)), fun slot listed => ?_⟩
  rw [List.mem_singleton.mp listed, VarTable.members_add_self]
  exact ⟨by simp, rfl⟩

theorem adds_addVars (tree : ScriptTree) (kind : VarKind) (types : List Ty) :
    Adds catalog tree (addVars kind tree.vars types).1 (addVars kind tree.vars types).2 := by
  induction types generalizing tree with
  | nil => exact ⟨.refl, fun _ listed => absurd listed List.not_mem_nil⟩
  | cons type types induction => exact (adds_add tree kind type).trans (induction _)

theorem Adds.aggregate (adds : Adds catalog tree vars slots) :
    Adds catalog tree (vars.aggregate slots).1 slots :=
  (adds.trans ⟨.single (.vars (.aggregate adds.leaves)),
    fun _ listed => absurd listed List.not_mem_nil⟩).subset (List.subset_append_left _ _)

theorem adds_ofResult (tree : ScriptTree) (type : Ty) :
    Adds catalog tree (ofResult type tree.vars).1 (ofResult type tree.vars).2 := by
  have adds : Adds catalog tree _ _ := adds_addVars tree .ret type.flatten
  unfold ofResult
  dsimp only
  split
  · exact adds.aggregate
  · exact adds

theorem adds_ofParam (tree : ScriptTree) (type : Ty) (width : Nat) :
    Adds catalog tree (ofParam type width tree.vars).1 (ofParam type width tree.vars).2.2 := by
  unfold ofParam
  dsimp only
  split
  · exact (adds_addVars tree .param type.flatten).aggregate
  · refine (adds_add tree .param type).subset fun slot listed => ?_
    rw [List.eq_of_mem_replicate listed]
    exact List.mem_singleton_self _

theorem adds_ofParams (tree : ScriptTree) (params : List (Ty × Nat)) :
    Adds catalog tree (ofParams tree.vars params).1 ((ofParams tree.vars params).2.flatMap (·.2)) := by
  induction params generalizing tree with
  | nil => exact ⟨.refl, fun _ listed => absurd listed List.not_mem_nil⟩
  | cons param params induction => exact (adds_ofParam tree param.1 param.2).trans (induction _)

/-- The slots of a frame have no members. -/
theorem adds_ofProto (tree : ScriptTree) (proto : Prototype) :
    Adds catalog tree (ofProto proto tree.vars).vars (ofProto proto tree.vars).slots := by
  refine ((adds_ofResult tree proto.returnType).trans (adds_ofParams
    { tree with vars := (ofResult proto.returnType tree.vars).1 }
    (proto.params.zip (proto.paramRanges.map (·.2))))).subset fun slot listed => ?_
  simpa [ofProto] using listed

end Frame

namespace RecoveryInput

variable {input : RecoveryInput} {sub : Nat}

/-- Before its first instruction a subroutine has nothing but an empty body. -/
theorem emptyTree_node (input : RecoveryInput) (sub : Nat) (id : NodeId) :
    ((input.emptyTree sub).node id).operands = [] ∧ (input.emptyTree sub).children id = [] := by
  cases id with
  | zero => exact ⟨rfl, rfl⟩
  | succ id =>
      have outside : (input.emptyTree sub).size ≤ id + 1 := Nat.succ_le_succ (Nat.zero_le id)
      rw [ScriptTree.children_eq, ScriptTree.node_of_le outside]
      exact ⟨rfl, rfl⟩

theorem emptyTree_isSound (input : RecoveryInput) (sub : Nat) :
    (input.emptyTree sub).IsSound input.catalog where
  sized := rfl
  rooted := rfl
  operands := fun {id _} used => by
    rw [(input.emptyTree_node sub id).1] at used
    cases used
  children := fun {holder _} held => by
    rw [(input.emptyTree_node sub holder).2] at held
    cases held
  values := fun found => absurd (VarTable.lt_of_get? found) (Nat.not_lt_zero _)
  declared := fun found => by
    obtain ⟨_, there, _⟩ := Option.bind_eq_some_iff.mp found
    exact absurd (VarTable.lt_of_get? there) (Nat.not_lt_zero _)
  flat := fun listed => by
    obtain ⟨_, there, _⟩ := VarTable.exists_of_mem_members listed
    exact absurd (VarTable.lt_of_get? there) (Nat.not_lt_zero _)

/-- A state that keeps record of nothing but slots and globals is sound if these are. -/
theorem isSound_fresh {catalog : ActionCatalog} {tree : ScriptTree} (sound : tree.IsSound catalog)
    {stack : SlotStack StackEntry} {globals : List VarId}
    (slots : ∀ entry ∈ stack.slots, tree.IsEntry catalog entry)
    (leaves : ∀ var ∈ globals, tree.IsEntry catalog (.var var)) (position : Nat) :
    Recovery.IsSound catalog { tree, stack, globals, position } where
  tree := sound
  stack := slots
  globals := leaves
  pendingReturn := fun _ held => by cases held
  closures := fun _ listed => absurd listed List.not_mem_nil
  dispatch := fun _ held => by cases held
  comparison := fun _ held => by cases held
  track := fun _ _ held => by cases held
  scopes := fun _ listed => absurd listed List.not_mem_nil

/-- The signature of a tree may be filled in. -/
theorem isSound_of_signature {catalog : ActionCatalog} {tree : ScriptTree}
    (sound : tree.IsSound catalog) (signature : Signature) :
    { tree with signature }.IsSound catalog :=
  sound.of_changes (show tree.Extends { tree with signature } from
      ⟨Nat.le_refl _, fun _ _ => rfl, .refl _, rfl⟩) sound.sized (fun used => .inl used)
    (fun held => .inl ⟨_, held⟩) (fun found valued => .inl ⟨_, _, found, valued⟩)
    (fun found => .inl ⟨_, found⟩) sound.flat

/-- The tree of a function whose variables are the globals only. -/
def globalTree (input : RecoveryInput) (sub : Nat) : ScriptTree :=
  { input.emptyTree sub with
    vars := (Frame.addVars .global (input.emptyTree sub).vars input.globals).1 }

/-- A function begins with the globals and, behind them, the variables of its frame. -/
theorem start_eq_function (function : input.kind sub = .function) : ∃ vars slots signature,
    Frame.Adds input.catalog (input.globalTree sub) vars slots ∧
    input.start sub = {
      tree := { input.emptyTree sub with vars, signature }
      stack := SlotStack.empty.pushAll (slots.map .var)
      globals := (Frame.addVars .global (input.emptyTree sub).vars input.globals).2
      position := (input.span sub).1 } := by
  unfold start
  rw [function]
  dsimp only
  split
  · exact ⟨_, [], _, ⟨.refl, fun _ listed => absurd listed List.not_mem_nil⟩, rfl⟩
  · exact ⟨_, _, _, Frame.adds_ofProto _ _, rfl⟩

/-- A recovery begins with an empty body and variables that were added step by step. -/
theorem start_tree (input : RecoveryInput) (sub : Nat) : (input.start sub).scopes = [] ∧
    ∃ vars signature,
      (input.emptyTree sub).Edits input.catalog { input.emptyTree sub with vars } ∧
        (input.start sub).tree = { input.emptyTree sub with vars, signature } := by
  cases kind : input.kind sub with
  | globals =>
      unfold start
      rw [kind]
      exact ⟨rfl, _, _, .refl, rfl⟩
  | function =>
      obtain ⟨vars, slots, signature, frame, same⟩ := input.start_eq_function kind
      have globals : Frame.Adds input.catalog (input.emptyTree sub) _ _ :=
        Frame.adds_addVars _ .global input.globals
      rw [same]
      exact ⟨rfl, vars, signature, (globals.trans frame).edits, rfl⟩

/-- A recovery begins in a sound state. -/
theorem start_isSound (input : RecoveryInput) (sub : Nat) :
    (input.start sub).IsSound input.catalog := by
  have empty := input.emptyTree_isSound sub
  cases kind : input.kind sub with
  | globals =>
      unfold start
      rw [kind]
      exact isSound_fresh empty (fun entry listed => by simp [SlotStack.empty] at listed)
        (fun _ listed => absurd listed List.not_mem_nil) _
  | function =>
      obtain ⟨vars, slots, signature, frame, same⟩ := input.start_eq_function kind
      have globals : Frame.Adds input.catalog (input.emptyTree sub) _ _ :=
        Frame.adds_addVars _ .global input.globals
      have all := globals.trans frame
      rw [same]
      refine isSound_fresh (isSound_of_signature (all.edits.isSound empty) signature)
        (fun entry listed => ?_) (fun global listed => all.leaves global (List.mem_append_left _ listed)) _
      rcases SlotStack.mem_pushAll_iff.mp listed with old | new
      · simp [SlotStack.empty] at old
      · obtain ⟨slot, there, rfl⟩ := List.mem_map.mp new
        exact frame.leaves slot there

end RecoveryInput

section Terms

variable {catalog : ActionCatalog} {defers ends allowed closed : Prop} {terms : Terms}
  {before after : Recovery} {ids : List Nat}

theorem Move.mono (move : Move ⟨catalog, defers, ends⟩ before after) (defer : defers → allowed)
    (finish : ends → closed) : Move ⟨catalog, allowed, closed⟩ before after := by
  cases move with
  | edit edit => exact .edit edit
  | emit unplaced different => exact .emit unplaced different
  | note tree scopes globals finished sound => exact .note tree scopes globals finished sound
  | enter held owns => exact .enter held owns
  | leave scopes => exact .leave scopes
  | defer height empty permitted => exact .defer height empty (defer permitted)
  | finish permitted => exact .finish (finish permitted)

theorem Plays.mono (plays : Plays ⟨catalog, defers, ends⟩ before ids after)
    (defer : defers → allowed) (finish : ends → closed) :
    Plays ⟨catalog, allowed, closed⟩ before ids after := by
  induction plays with
  | refl => exact .refl
  | move _ move induction => exact induction.move (move.mono defer finish)
  | command _ command induction => exact induction.command command

/-- Where a subroutine may not end it does not. -/
theorem Plays.finished (plays : Plays terms before ids after) (lasts : ¬terms.ends) :
    after.finished = before.finished := by
  induction plays with
  | refl => rfl
  | move _ move induction =>
      rw [← induction]
      cases move with
      | note tree scopes globals finished => exact finished
      | finish permitted => exact absurd permitted lasts
      | _ => rfl
  | command _ command induction =>
      obtain ⟨_, _, _, rfl⟩ := command.added
      exact induction

end Terms

namespace RecoveryInput

variable {input : RecoveryInput} {sub : Nat}

/-- What the recovery of a subroutine may rely on: deferred arguments begin behind a saved state. -/
def terms (input : RecoveryInput) (sub : Nat) : Terms where
  catalog := input.catalog
  defers := ∃ command ∈ input.program.body sub, (input.program.opcode command).isStateSave
  ends := True

/-- An instruction is known to be live. -/
def IsLive (input : RecoveryInput) (command : Nat) : Prop :=
  input.table.isDead command = .ok false

instance (command : Nat) : Decidable (input.IsLive command) :=
  inferInstanceAs (Decidable (_ = _))

/-- The actions without a result that the live ones of some instructions call. -/
def liveCommands (input : RecoveryInput) (commands : List Nat) : List Nat :=
  (commands.filter fun command => input.IsLive command).filterMap input.command?

theorem liveCommands_cons_dead {command : Nat} (dead : input.table.isDead command = .ok true)
    (rest : List Nat) : input.liveCommands (command :: rest) = input.liveCommands rest := by
  rw [liveCommands, List.filter_cons, if_neg (by simp [IsLive, dead]), liveCommands]

theorem liveCommands_cons_live {command : Nat} (live : input.table.isDead command = .ok false)
    (rest : List Nat) : input.liveCommands (command :: rest) =
      (input.command? command).toList ++ input.liveCommands rest := by
  rw [liveCommands, List.filter_cons, if_pos (by simp [IsLive, live]), List.filterMap_cons,
    liveCommands]
  cases input.command? command <;> rfl

theorem liveCommands_of_dead {commands : List Nat}
    (dead : ∀ command ∈ commands, input.table.isDead command = .ok true) :
    input.liveCommands commands = [] := by
  rw [liveCommands, List.filter_eq_nil_iff.mpr, List.filterMap_nil]
  intro command listed
  simp [IsLive, dead command listed]

theorem firstLive_eq_none {commands : List Nat} (none_live : input.firstLive commands = .ok none) :
    ∀ command ∈ commands, input.table.isDead command = .ok true := by
  induction commands with
  | nil => exact fun _ listed => absurd listed List.not_mem_nil
  | cons command commands induction =>
      rw [firstLive] at none_live
      cases dead : input.table.isDead command with
      | error fault =>
          rw [dead] at none_live
          cases none_live
      | ok state =>
          rw [dead] at none_live
          cases state with
          | false => cases none_live
          | true => exact List.forall_mem_cons.mpr ⟨dead, induction none_live⟩

/-- The instructions behind one of a subroutine. -/
theorem filter_body_of_split {command : Nat} {front rest : List Nat}
    (split : input.program.body sub = front ++ command :: rest) :
    (input.program.body (input.program.owner command)).filter (fun other => command < other) = rest := by
  have inside : sub < input.program.subroutineCount := by
    by_contra outside
    rw [Program.body_eq_nil (Nat.not_lt.mp outside)] at split
    simp at split
  have listed : command ∈ input.program.body sub := by simp [split]
  obtain ⟨first, count, earlier, place, later⟩ := Program.body_split inside split
  rw [((Program.mem_body_iff inside).mp listed).2, split, List.filter_append, List.filter_cons,
    if_neg (by simp), List.filter_eq_nil_iff.mpr, List.filter_eq_self.mpr, List.nil_append]
  · intro other there
    rw [later] at there
    simpa using Nat.lt_of_succ_le (List.mem_range'_1.mp there).1
  · intro other there
    rw [earlier] at there
    have bound := (List.mem_range'_1.mp there).2
    simp only [decide_eq_true_eq]
    omega

/-- A deferred argument begins behind a saved state of the same subroutine. -/
theorem exists_of_skipsClosure {command : Nat} (listed : command ∈ input.program.body sub)
    (skips : input.skipsClosure command) :
    ∃ command ∈ input.program.body sub, (input.program.opcode command).isStateSave := by
  have inside : sub < input.program.subroutineCount := by
    by_contra outside
    rw [Program.body_eq_nil (Nat.not_lt.mp outside)] at listed
    cases listed
  obtain ⟨previous, found, saves⟩ := (Option.any_eq_true _ _).mp skips
  rw [Program.previous?_eq_ite inside listed] at found
  split at found
  · rename_i before
    obtain rfl := Option.some.inj found
    exact ⟨_, before.2, saves⟩
  · cases found

/-- Dead instructions are skipped. -/
theorem visitAll_dead {commands : List Nat} {before after : Recovery}
    (dead : ∀ command ∈ commands, input.table.isDead command = .ok true)
    (runs : Runs (visitAll input commands) before () after) : after = before := by
  induction commands with
  | nil => exact (Prod.mk.inj (Except.ok.inj runs)).2.symm
  | cons command commands induction =>
      obtain ⟨here, others⟩ := List.forall_mem_cons.mp dead
      rw [visitAll] at runs
      have rest := runs.rest (.reads before)
      split at rest
      · exact induction others (rest.rest (.lift here before))
      · exact (Prod.mk.inj (Except.ok.inj rest)).2.symm

/-- The instructions of a function play the actions without a result that live ones call. -/
theorem visitAll_plays {front rest : List Nat}
    (split : input.program.body sub = front ++ rest) {before : Recovery}
    (kind : before.tree.kind = .function) (unfinished : before.finished = false) :
    Acts (input.terms sub) (visitAll input rest) before (input.liveCommands rest) := by
  induction rest generalizing front before with
  | nil => exact Goes.acts (.done trivial)
  | cons command rest induction =>
      have later := split.trans (List.append_cons front command rest)
      have listed : command ∈ input.program.body sub := by simp [split]
      intro sound after runs
      rw [visitAll] at runs
      have unended := runs.rest (.reads before)
      rw [unfinished] at unended
      obtain ⟨dead, middle, read, visited⟩ := Runs.split unended
      cases found : input.table.isDead command with
      | error fault =>
          rw [found] at read
          cases read
      | ok state =>
          rw [found] at read
          cases read
          cases dead with
          | true =>
              rw [liveCommands_cons_dead found]
              exact induction later kind unfinished sound visited
          | false =>
              obtain ⟨_, behind, ran, remaining⟩ := Runs.split visited
              have allows : Allows input
                  ⟨input.catalog, (input.terms sub).defers, input.nextLive command = .ok none⟩ command :=
                ⟨rfl, fun _ => exists_of_skipsClosure listed, fun _ last => last⟩
              have acted := visit_acts allows (fun globals => by rw [kind] at globals; cases globals)
                sound ran
              have played : Plays (input.terms sub) before (input.command? command).toList behind :=
                acted.mono id fun _ => trivial
              rw [liveCommands_cons_live found]
              by_cases last : input.nextLive command = .ok none
              · rw [nextLive, filter_body_of_split split] at last
                have dead := firstLive_eq_none last
                rw [visitAll_dead dead remaining, liveCommands_of_dead dead, List.append_nil]
                exact played
              · refine played.trans (induction later ?_ ?_ (played.isSound sound) remaining)
                · exact played.isExtension.kind.trans kind
                · exact (acted.finished last).trans unfinished

/-- A recovery that succeeds visits all instructions and completes. -/
theorem runs_of_run {last : Recovery} (recovered : input.run sub = .ok last) :
    Runs (visitAll input (input.program.body sub) >>= fun _ => complete) (input.start sub) () last := by
  unfold run at recovered
  dsimp only at recovered
  cases ran : (visitAll input (input.program.body sub) >>= fun _ => complete).run (input.start sub) with
  | error fault =>
      rw [ran] at recovered
      cases recovered
  | ok pair =>
      rw [ran] at recovered
      cases recovered
      exact ran

/-- A function plays the actions without a result that its live instructions call. -/
theorem run_plays (function : input.kind sub = .function) {last : Recovery}
    (recovered : input.run sub = .ok last) :
    Plays (input.terms sub) (input.start sub) (input.liveCommands (input.program.body sub)) last := by
  have sound := input.start_isSound sub
  have kind : (input.start sub).tree.kind = .function := by
    obtain ⟨vars, slots, signature, _, same⟩ := input.start_eq_function function
    rw [same]
    exact function
  have unfinished : (input.start sub).finished = false := by
    obtain ⟨vars, slots, signature, _, same⟩ := input.start_eq_function function
    rw [same]
  obtain ⟨_, middle, visited, completed⟩ := Runs.split (runs_of_run recovered)
  have played := visitAll_plays (List.nil_append _).symm kind unfinished sound visited
  have closed := (complete_goes (played.isSound sound) completed).1
  rw [← List.append_nil (input.liveCommands _)]
  exact played.trans closed

/-- Whatever a subroutine is, its instructions play some actions without a result. -/
theorem exists_plays_visitAll {rest : List Nat} (listed : ∀ command ∈ rest, command ∈ input.program.body sub)
    {before after : Recovery} (sound : before.IsSound input.catalog)
    (runs : Runs (visitAll input rest) before () after) :
    ∃ ids, Plays (input.terms sub) before ids after := by
  induction rest generalizing before with
  | nil =>
      obtain rfl : after = before := (Prod.mk.inj (Except.ok.inj runs)).2.symm
      exact ⟨[], .refl⟩
  | cons command rest induction =>
      obtain ⟨here, others⟩ := List.forall_mem_cons.mp listed
      rw [visitAll] at runs
      have unended := runs.rest (.reads before)
      split at unended
      swap
      · obtain rfl : after = before := (Prod.mk.inj (Except.ok.inj unended)).2.symm
        exact ⟨[], .refl⟩
      obtain ⟨dead, middle, read, visited⟩ := Runs.split unended
      cases found : input.table.isDead command with
      | error fault =>
          rw [found] at read
          cases read
      | ok state =>
          rw [found] at read
          cases read
          cases dead with
          | true => exact induction others sound visited
          | false =>
              obtain ⟨_, behind, ran, remaining⟩ := Runs.split visited
              have allows : Allows input (input.terms sub) command :=
                ⟨rfl, fun _ => exists_of_skipsClosure here, fun _ _ => trivial⟩
              have played : Plays (input.terms sub) before (input.command? command).toList behind :=
                visit_acts allows (fun _ => trivial) sound ran
              obtain ⟨ids, later⟩ := induction others (played.isSound sound) remaining
              exact ⟨_, played.trans later⟩

theorem exists_plays_run {last : Recovery} (recovered : input.run sub = .ok last) :
    ∃ ids, Plays (input.terms sub) (input.start sub) ids last := by
  have sound := input.start_isSound sub
  obtain ⟨_, middle, visited, completed⟩ := Runs.split (runs_of_run recovered)
  obtain ⟨ids, played⟩ := exists_plays_visitAll (fun _ listed => listed) sound visited
  exact ⟨_, played.trans (complete_goes (played.isSound sound) completed).1⟩

end RecoveryInput

namespace Recover

variable {input : RecoveryInput} {terms : Terms} {task : Task} {more : List Task}
  {before after : Recovery}

/-- The first part of each task plays what the terms allow its instruction. -/
theorem exists_plays_advance (ends : terms.ends)
    (allows : ∀ command, task = .execute command → Allows input terms command)
    (sound : before.IsSound terms.catalog) (runs : Runs (task.advance input) before more after) :
    ∃ ids, Plays terms before ids after := by
  have goes : ∀ {step : Recover Unit}, Goes terms step before → Runs step before () after →
      ∃ ids, Plays terms before ids after := fun goes runs => ⟨[], (goes sound runs).1⟩
  cases advances_of_runs runs with
  | visit => exact ⟨[], position_plays _⟩
  | close scopes ended closing => exact goes (closeScope_goes _ scopes) closing
  | enterCase entering => exact goes (enterCase_goes _) entering
  | openOuterLoop opening => exact goes (openOuterLoop_goes _) opening
  | openInnerLoop opening => exact goes (openInnerLoops_goes _) opening
  | @execute command _ executing =>
      have forgets : Plays terms before [] { before with track := none } :=
        .move .refl (.note rfl rfl rfl rfl fun all =>
          { all with track := fun _ _ none_left => by cases none_left })
      have acts : Acts terms _ { before with track := none } _ :=
        execute_acts (allows command rfl) (fun _ => ends) sound.track
      exact ⟨_, forgets.trans (acts (forgets.isSound sound) executing)⟩
  | returnRest returning =>
      refine goes (.reads ?_) returning
      split
      · exact returnPending_goes
      · exact .done trivial
  | _ => exact ⟨[], .refl⟩

/-- The instruction that a task visits or executes is one of some. -/
def Task.IsAmong (commands : List Nat) : Task → Prop
  | .visit command | .execute command => command ∈ commands
  | _ => True

/-- The tasks that take the place of a task are about the same instructions. -/
theorem Advances.isAmong {commands : List Nat} (advances : Advances input before task more after)
    (here : task.IsAmong commands) : ∀ other ∈ more, other.IsAmong commands := by
  intro other listed
  cases advances with
  | visit command =>
      simp only [List.mem_cons, List.not_mem_nil, or_false] at listed
      rcases listed with rfl | rfl | rfl | rfl
      · exact trivial
      · exact trivial
      · exact trivial
      · exact here
  | complete =>
      simp only [List.mem_cons, List.not_mem_nil, or_false] at listed
      rcases listed with rfl | rfl | rfl <;> exact trivial
  | openLoops =>
      rcases List.mem_pair.mp listed with rfl | rfl <;> exact trivial
  | close | openInnerLoop =>
      obtain rfl := List.mem_singleton.mp listed
      exact trivial
  | _ => cases listed

end Recover

namespace RecoveryInput

variable {input : RecoveryInput} {sub : Nat} {state : Recovery} {tasks : List Task}

/-- Every state that a recovery passes through is sound. -/
theorem isSound_of_passes (passes : input.Passes sub state tasks) : state.IsSound input.catalog := by
  have whole : ∀ {reached : Recovery × List Task},
      Relation.ReflTransGen (Step input) (input.start sub, input.agenda sub) reached →
        reached.1.IsSound input.catalog ∧
          ∀ task ∈ reached.2, task.IsAmong (input.program.body sub) := by
    intro reached path
    induction path with
    | refl =>
        refine ⟨input.start_isSound sub, fun task listed => ?_⟩
        rcases List.mem_append.mp listed with visited | last
        · obtain ⟨command, there, rfl⟩ := List.mem_map.mp visited
          exact there
        · rw [List.mem_singleton.mp last]
          exact trivial
    | tail _ step induction =>
        obtain ⟨sound, among⟩ := induction
        cases step with
        | @advance task _ _ _ _ runs =>
            obtain ⟨here, others⟩ := List.forall_mem_cons.mp among
            have allows : ∀ command, task = .execute command →
                Allows input (input.terms sub) command := by
              rintro command rfl
              exact ⟨rfl, fun _ => exists_of_skipsClosure here, fun _ _ => trivial⟩
            obtain ⟨ids, plays⟩ := exists_plays_advance trivial allows sound runs
            exact ⟨plays.isSound sound, List.forall_mem_append.mpr
              ⟨(advances_of_runs runs).isAmong here, others⟩⟩
  exact (whole passes).1

end RecoveryInput
end NwScript
