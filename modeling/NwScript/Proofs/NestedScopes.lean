import NwScript.Proofs.RecoveryTasks
import NwScript.Proofs.ScopeMoves

/-!
# Nesting of open scopes

In every state that the recovery of a subroutine passes through, what has been compared with the end
of the innermost open node lies within it.  Open scopes are therefore nested exactly if those are that
nothing is compared with: deferred arguments, switches and cases.  A branch, an else branch and a loop
that would end behind the scope around them fail the recovery.
-/

namespace NwScript

/-- What has a position is an instruction of the program. -/
theorem Program.lt_of_lt_position {program : Program} {command position : Nat}
    (behind : position < program.position command) : command < program.commandCount := by
  rw [Program.position, command?] at behind
  by_contra outside
  rw [Array.getElem?_eq_none (Nat.not_lt.mp outside)] at behind
  exact absurd behind (Nat.not_lt_zero _)

/-- Positions behind instructions are words. -/
theorem Program.positionAfter_le_last (program : Program) (command : Nat) :
    program.positionAfter command ≤ Recovery.lastPosition :=
  Nat.le_of_lt_succ (Nat.mod_lt _ (Nat.succ_pos _))

namespace Recover

open RecoveryInput

variable {input : RecoveryInput} {sub time command : Nat} {before after : Recovery}

/-- The search for the ends of loops goes through the jumps one by one. -/
theorem exists_of_latches_cons {position origin : Nat} {origins found : List Nat}
    (searched : latches input position (origin :: origins) = .ok found) :
    ∃ rest, latches input position origins = .ok rest ∧ (found = rest ∨ found = origin :: rest ∧
      input.program.opcode origin = .jump ∧ position < input.program.position origin) := by
  rw [latches] at searched
  cases searching : latches input position origins with
  | error fault =>
      rw [searching] at searched
      split at searched
      · cases dead : input.table.isDead origin with
        | error fault =>
            rw [dead] at searched
            cases searched
        | ok isDead =>
            rw [dead] at searched
            cases searched
      · cases searched
  | ok rest =>
      refine ⟨rest, rfl, ?_⟩
      rw [searching] at searched
      split at searched
      · rename_i ends
        cases dead : input.table.isDead origin with
        | error fault =>
            rw [dead] at searched
            cases searched
        | ok isDead =>
            rw [dead] at searched
            cases isDead with
            | true =>
                cases searched
                exact .inl rfl
            | false =>
                cases searched
                exact .inr ⟨rfl, ends⟩
      · cases searched
        exact .inl rfl

/-- Loops end with jumps behind their first instruction. -/
theorem mem_latches {position : Nat} {origins found : List Nat}
    (searched : latches input position origins = .ok found) {latch : Nat} (listed : latch ∈ found) :
    latch ∈ origins ∧ input.program.opcode latch = .jump ∧ position < input.program.position latch := by
  induction origins generalizing found with
  | nil =>
      cases searched
      exact absurd listed List.not_mem_nil
  | cons origin origins induction =>
      obtain ⟨rest, searching, rfl | ⟨rfl, ends⟩⟩ := exists_of_latches_cons searched
      · exact (induction searching listed).imp_left (List.mem_cons_of_mem _)
      · rcases List.mem_cons.mp listed with rfl | inner
        · exact ⟨List.mem_cons_self, ends⟩
        · exact (induction searching inner).imp_left (List.mem_cons_of_mem _)

/-- What is left to do before an instruction is executed. -/
inductive Prepares (input : RecoveryInput) (sub command : Nat) (state : Recovery) : List Task → Prop
  /-- Scopes that end here are closed. -/
  | close (count : Nat) : Prepares input sub command state
      [.close (input.program.position command) count, .enterCase (input.program.position command),
        .openLoops command]
  /-- The case that begins here is entered. -/
  | enterCase : Prepares input sub command state
      [.enterCase (input.program.position command), .openLoops command]
  /-- The loops that begin here are searched. -/
  | openLoops : Prepares input sub command state [.openLoops command]
  /-- The outermost loop ends behind the others. -/
  | openOuterLoop {latch : Nat} {latches : List Nat}
      (confined : input.IsConfined sub → input.program.positionAfter latch ≤ (input.span sub).2)
      (ordered : (latch :: latches).Pairwise fun outer inner =>
        input.program.positionAfter inner ≤ input.program.positionAfter outer) :
      Prepares input sub command state [.openOuterLoop latch, .openInnerLoops latches]
  /-- The other loops end within the innermost one that is open. -/
  | openInnerLoops {latches : List Nat}
      (inside : ∀ latch ∈ latches, input.program.positionAfter latch ≤ state.limit state.current)
      (ordered : latches.Pairwise fun outer inner =>
        input.program.positionAfter inner ≤ input.program.positionAfter outer) :
      Prepares input sub command state [.openInnerLoops latches]
  /-- Everything is open. -/
  | ready : Prepares input sub command state []

/-- What is left to do behind the last instruction. -/
inductive Finishes : List Task → Prop
  /-- Everything is closed. -/
  | close (count : Nat) :
      Finishes [.close Recovery.lastPosition count, .enterCase Recovery.lastPosition, .returnRest]
  /-- No case is left to be entered. -/
  | enterCase : Finishes [.enterCase Recovery.lastPosition, .returnRest]
  /-- A value may be left to be returned. -/
  | returnRest : Finishes [.returnRest]
  /-- Nothing is left. -/
  | done : Finishes []

/-- Instructions of a subroutine that begin at some time or later are left to be visited. -/
structure AreLater (input : RecoveryInput) (sub time : Nat) (commands : List Nat) : Prop where
  /-- They are the last ones of the subroutine. -/
  suffix : commands <:+ input.program.body sub
  /-- They begin later. -/
  later : ∀ command ∈ commands, time ≤ input.program.position command
  /-- Times are words. -/
  word : time ≤ Recovery.lastPosition

/-- What is left to do at some time of the recovery of a subroutine. -/
inductive Scheduled (input : RecoveryInput) (sub : Nat) : Nat → Recovery → List Task → Prop
  /-- The next instruction is visited. -/
  | between {time : Nat} {state : Recovery} {commands : List Nat}
      (later : AreLater input sub time commands) :
      Scheduled input sub time state (commands.map .visit ++ [.complete])
  /-- An instruction is prepared and executed. -/
  | visiting {state : Recovery} {command : Nat} {tasks : List Task} {commands : List Nat}
      (listed : command ∈ input.program.body sub)
      (here : state.position = input.program.position command)
      (prepares : Prepares input sub command state tasks)
      (later : AreLater input sub (input.program.positionAfter command) commands) :
      Scheduled input sub (input.program.position command) state
        (tasks ++ .execute command :: (commands.map .visit ++ [.complete]))
  /-- The subroutine is completed. -/
  | finishing {state : Recovery} {tasks : List Task} (finishes : Finishes tasks) :
      Scheduled input sub Recovery.lastPosition state tasks

/-- When a task that begins at some time has ended. -/
def Task.ends (input : RecoveryInput) : Task → (time : Nat) → Nat
  | execute command, _ => input.program.positionAfter command
  | _, time => time

section Scheduling

variable {task : Task} {tasks : List Task}

/-- An instruction is executed at its position. -/
theorem Scheduled.executes
    (scheduled : Scheduled input sub time before (.execute command :: tasks)) :
    command ∈ input.program.body sub ∧ time = input.program.position command := by
  generalize whole : Task.execute command :: tasks = left at scheduled
  cases scheduled with
  | @between _ _ commands later => cases commands <;> cases whole
  | @visiting _ _ prepared _ listed here prepares later =>
      cases prepared with
      | nil =>
          cases whole
          exact ⟨listed, rfl⟩
      | cons next prepared =>
          cases whole
          cases prepares
  | finishing finishes =>
      subst whole
      cases finishes

/-- The case that is entered is the one that holds the time. -/
theorem Scheduled.enters {position : Nat}
    (scheduled : Scheduled input sub time before (.enterCase position :: tasks)) :
    position = time := by
  generalize whole : Task.enterCase position :: tasks = left at scheduled
  cases scheduled with
  | @between _ _ commands later => cases commands <;> cases whole
  | @visiting _ _ prepared _ listed here prepares later =>
      cases prepares <;> cases whole
      rfl
  | finishing finishes =>
      subst whole
      cases finishes
      rfl

end Scheduling

section Failing

variable {α β : Type} {step : Recover α} {next : α → Recover β} {middle : Recovery} {value : α}
  {fault : Fault}

/-- A step fails. -/
def Fails (step : Recover α) (before : Recovery) (fault : Fault) : Prop :=
  step.run before = .error fault

theorem Fails.bind (fails : Fails step before fault) : Fails (step >>= next) before fault := by
  rw [Fails, StateT.run_bind, fails]
  rfl

/-- What comes after a step fails. -/
theorem Runs.thenFails (runs : Runs step before value middle)
    (fails : Fails (next value) middle fault) : Fails (step >>= next) before fault := by
  rw [Fails, StateT.run_bind, runs]
  exact fails

theorem unclassified_fails (obstacle : Obstacle) (recovery : Recovery) :
    Fails (unclassified obstacle : Recover α) recovery (.unclassified recovery.position obstacle) :=
  rfl

end Failing

section Advancing

variable {task : Task} {tasks more : List Task}

/-- At most one scope is closed at a time. -/
theorem close_ordered {count : Nat} (orderly : input.Orderly sub time [] before)
    (runs : Runs ((Task.close time count).advance input) before more after) :
    (more = [] ∨ ∃ fewer, more = [.close time fewer]) ∧ input.Orderly sub time [] after ∧
      after.position = before.position := by
  cases advances_of_runs runs with
  | closed => exact ⟨.inl rfl, orderly, rfl⟩
  | @close _ fewer _ _ _ scopes ended closing =>
      exact ⟨.inr ⟨fewer, rfl⟩, closeScope_ordered orderly scopes ended closing⟩

/-- The loops that begin at an instruction are opened from the outermost to the innermost. -/
theorem openLoops_ordered (laid : input.program.IsLaidOut)
    (listed : command ∈ input.program.body sub)
    (here : before.position = input.program.position command)
    (runs : Runs ((Task.openLoops command).advance input) before more after) :
    after = before ∧ Prepares input sub command after more := by
  obtain ⟨origins, middle, asked, rest⟩ := runs.split
  obtain ⟨known, rfl⟩ := asked.of_lift
  obtain ⟨found, last, searching, opens⟩ := (rest.rest (.reads _)).split
  obtain ⟨searched, rfl⟩ := searching.of_lift
  have sorted : (found.mergeSort fun left right =>
      decide (input.program.position right ≤ input.program.position left)).Pairwise fun left right =>
        decide (input.program.position right ≤ input.program.position left) = true := by
    refine List.pairwise_mergeSort (fun first second third left right => ?_)
      (fun first second => ?_) found
    · exact decide_eq_true (Nat.le_trans (of_decide_eq_true right) (of_decide_eq_true left))
    · rw [Bool.or_eq_true, decide_eq_true_eq, decide_eq_true_eq]
      exact Nat.le_total _ _
  cases order : found.mergeSort fun left right =>
      decide (input.program.position right ≤ input.program.position left) with
  | nil =>
      rw [order] at opens
      cases opens
      exact ⟨rfl, .ready⟩
  | cons outer inner =>
      rw [order] at opens sorted
      cases opens
      have ends : ∀ latch ∈ outer :: inner, latch ∈ origins ∧ input.program.opcode latch = .jump ∧
          latch < input.program.commandCount := by
        intro latch there
        rw [← order, List.mem_mergeSort] at there
        obtain ⟨origin, jumps, behind⟩ := mem_latches searched there
        exact ⟨origin, jumps, Program.lt_of_lt_position behind⟩
      obtain ⟨origin, jumps, -⟩ := ends outer List.mem_cons_self
      refine ⟨rfl, .openOuterLoop (fun confined => ?_) (sorted.imp_of_mem fun left right order => ?_)⟩
      · exact positionAfter_le_span laid (confined.comes command listed origins known outer origin jumps)
      · exact laid.positionAfter_mono (ends _ right).2.2 (ends _ left).2.2 (of_decide_eq_true order)

/-- Preparing an instruction keeps what is open in order. -/
theorem Prepares.advance (laid : input.program.IsLaidOut)
    (listed : command ∈ input.program.body sub)
    (here : before.position = input.program.position command)
    (prepares : Prepares input sub command before (task :: tasks))
    (orderly : input.Orderly sub (input.program.position command) [] before)
    (runs : Runs (task.advance input) before more after) :
    Prepares input sub command after (more ++ tasks) ∧
      input.Orderly sub (input.program.position command) [] after ∧
      after.position = input.program.position command := by
  cases prepares with
  | close count =>
      obtain ⟨left, ordered, stays⟩ := close_ordered orderly runs
      rcases left with rfl | ⟨fewer, rfl⟩
      · exact ⟨.enterCase, ordered, stays.trans here⟩
      · exact ⟨.close fewer, ordered, stays.trans here⟩
  | enterCase =>
      obtain ⟨_, entered, entering, last⟩ := runs.split
      cases last
      obtain ⟨ordered, stays⟩ := enterCase_ordered orderly entering
      exact ⟨.openLoops, ordered, stays.trans here⟩
  | openLoops =>
      obtain ⟨rfl, prepares⟩ := openLoops_ordered laid listed here runs
      rw [List.append_nil]
      exact ⟨prepares, orderly, here⟩
  | @openOuterLoop latch latches confined ordered =>
      obtain ⟨_, opened, opening, last⟩ := runs.split
      cases last
      obtain ⟨kept, stays, limit⟩ := openOuterLoop_ordered orderly here confined opening
      obtain ⟨first, rest⟩ := List.pairwise_cons.mp ordered
      refine ⟨.openInnerLoops (fun inner there => ?_) rest, kept, stays.trans here⟩
      rw [limit]
      exact first inner there
  | @openInnerLoops latches inside ordered =>
      cases latches with
      | nil =>
          cases runs
          exact ⟨.ready, orderly, here⟩
      | cons latch latches =>
          obtain ⟨_, opened, opening, last⟩ := runs.split
          cases last
          obtain ⟨kept, stays, limit⟩ :=
            openInnerLoops_ordered orderly here (inside latch List.mem_cons_self) opening
          obtain ⟨first, rest⟩ := List.pairwise_cons.mp ordered
          exact ⟨.openInnerLoops (fun inner there => Nat.le_trans (first inner there) limit) rest, kept,
            stays.trans here⟩

/-- Completing a subroutine keeps what is open in order. -/
theorem Finishes.advance (finishes : Finishes (task :: tasks))
    (orderly : input.Orderly sub Recovery.lastPosition [] before)
    (runs : Runs (task.advance input) before more after) :
    Finishes (more ++ tasks) ∧ input.Orderly sub Recovery.lastPosition [] after := by
  cases finishes with
  | close count =>
      obtain ⟨left, ordered, -⟩ := close_ordered orderly runs
      rcases left with rfl | ⟨fewer, rfl⟩
      · exact ⟨.enterCase, ordered⟩
      · exact ⟨.close fewer, ordered⟩
  | enterCase =>
      obtain ⟨_, entered, entering, last⟩ := runs.split
      cases last
      exact ⟨.returnRest, (enterCase_ordered orderly entering).1⟩
  | returnRest =>
      obtain ⟨_, returned, returning, last⟩ := runs.split
      cases last
      have quiet : Quiets (do if (← get).pendingReturn.isSome then returnPending) before :=
        .reads (.ite (fun _ => returnPending_quiet) fun _ => .done ())
      exact ⟨.done, orderly.keep (quiet returning).keeps⟩

/-- The instructions behind a visited one begin when it has ended. -/
theorem AreLater.behind (laid : input.program.IsLaidOut) {commands : List Nat}
    (later : AreLater input sub time (command :: commands)) :
    command ∈ input.program.body sub ∧
      AreLater input sub (input.program.positionAfter command) commands := by
  have listed := later.suffix.subset List.mem_cons_self
  refine ⟨listed, (List.suffix_cons command commands).trans later.suffix, fun other there => ?_,
    Program.positionAfter_le_last _ _⟩
  have order : (input.program.body sub).Pairwise (· < ·) := List.pairwise_lt_range'
  have behind := (List.pairwise_cons.mp (order.sublist later.suffix.sublist)).1 other there
  exact laid.positionAfter_le behind (Program.lt_of_mem_body
    (later.suffix.subset (List.mem_cons_of_mem _ there)))

/-- A visit begins with closing scopes, unless there is nothing to be visited. -/
theorem visit_ordered (laid : input.program.IsLaidOut) {commands : List Nat}
    (orderly : input.Orderly sub time [] before)
    (later : AreLater input sub time (command :: commands))
    (runs : Runs ((Task.visit command).advance input) before more after) :
    ∃ last, time ≤ last ∧ input.Orderly sub last [] after ∧
      Scheduled input sub last after (more ++ (commands.map .visit ++ [.complete])) := by
  obtain ⟨listed, behind⟩ := later.behind laid
  have skipped : AreLater input sub time commands :=
    { later with
      suffix := (List.suffix_cons command commands).trans later.suffix
      later := fun other there => later.later other (List.mem_cons_of_mem _ there) }
  cases advances_of_runs runs with
  | skip => exact ⟨time, Nat.le_refl _, orderly, .between skipped⟩
  | visit =>
      have order := later.later command List.mem_cons_self
      have started := (orderly.later order).keep (show Recovery.Keeps _
        { before with position := input.program.position command } from ⟨rfl, .refl _ _⟩)
      exact ⟨_, order, started, .visiting listed rfl (.close _) behind⟩

/-- Each step keeps what is open in order. -/
theorem Scheduled.advance (laid : input.program.IsLaidOut)
    (scheduled : Scheduled input sub time before (task :: tasks))
    (orderly : input.Orderly sub time [] before)
    (runs : Runs (task.advance input) before more after) :
    ∃ last, task.ends input time ≤ last ∧ input.Orderly sub last [] after ∧
      Scheduled input sub last after (more ++ tasks) := by
  generalize whole : task :: tasks = left at scheduled
  cases scheduled with
  | @between _ _ commands later =>
      cases commands with
      | nil =>
          obtain ⟨rfl, rfl⟩ := List.cons.inj whole
          cases runs
          exact ⟨_, later.word, orderly.later later.word, .finishing (.close _)⟩
      | cons command commands =>
          obtain ⟨rfl, rfl⟩ := List.cons.inj whole
          exact visit_ordered laid orderly later runs
  | @visiting _ command prepared commands listed here prepares later =>
      cases prepared with
      | nil =>
          obtain ⟨rfl, rfl⟩ := List.cons.inj whole
          obtain ⟨_, executed, executing, last⟩ := runs.split
          cases last
          have cleared : Orderly input sub (input.program.position command) []
              { before with track := none } := orderly.keep ⟨rfl, .refl _ _⟩
          have rest := (executing.rest (.reads before)).rest (.changes _ before)
          exact ⟨_, Nat.le_refl _, execute_arranges laid listed before.track _ _ _ rest cleared,
            .between later⟩
      | cons next prepared =>
          obtain ⟨rfl, rfl⟩ := List.cons.inj (whole.trans List.cons_append)
          obtain ⟨kept, ordered, stays⟩ := prepares.advance laid listed here orderly runs
          rw [← List.append_assoc]
          refine ⟨_, ?_, ordered, .visiting listed stays kept later⟩
          cases prepares <;> exact Nat.le_refl _
  | finishing finishes =>
      subst whole
      obtain ⟨left, ordered⟩ := finishes.advance orderly runs
      refine ⟨_, ?_, ordered, .finishing left⟩
      cases finishes <;> exact Nat.le_refl _

end Advancing

end Recover

namespace RecoveryInput

open Recover

variable {input : RecoveryInput} {sub : Nat} {state : Recovery} {tasks : List Task}

/-- A recovery begins with nothing but an empty body. -/
theorem start_spec (input : RecoveryInput) (sub : Nat) :
    (input.start sub).scopes = [] ∧ (input.start sub).tree.nodes = (input.emptyTree sub).nodes := by
  unfold start
  dsimp only
  split
  · exact ⟨rfl, rfl⟩
  · split
    · exact ⟨rfl, rfl⟩
    · exact ⟨rfl, rfl⟩

/-- A recovery begins in order. -/
theorem start_orderly (input : RecoveryInput) (sub : Nat) :
    input.Orderly sub (input.span sub).1 [] (input.start sub) := by
  obtain ⟨scopes, nodes⟩ := input.start_spec sub
  have root : (input.start sub).tree.node ScriptTree.root =
      .block { start := (input.span sub).1, limit := (input.span sub).2 } := by
    rw [ScriptTree.node, nodes]
    rfl
  have only : (input.start sub).openNodes = [ScriptTree.root] := by
    rw [Recovery.openNodes, scopes]
    rfl
  refine ⟨congrArg Node.outline root, fun scope listed => ?_, fun id listed => ?_,
    fun scope listed => ?_, fun inner scope outer split => ?_, ?_⟩
  · rw [scopes] at listed
    exact absurd listed List.not_mem_nil
  · rw [only] at listed
    rw [List.mem_singleton.mp listed, Recovery.range, root]
    exact Nat.le_refl _
  · rw [scopes] at listed
    exact absurd listed List.not_mem_nil
  · rw [scopes] at split
    simp at split
  · rw [only]
    exact List.IsChain.singleton _

/-- At first all instructions of the subroutine are left. -/
theorem start_areLater (laid : input.program.IsLaidOut) (sub : Nat) :
    AreLater input sub (input.span sub).1 (input.program.body sub) := by
  refine ⟨List.suffix_refl _, fun command listed => span_le_position laid listed, ?_⟩
  cases body : input.program.body sub with
  | nil =>
      simp [span, body]
  | cons first rest =>
      have listed : first ∈ input.program.body sub := by
        rw [body]
        exact List.mem_cons_self
      have inside := Program.lt_of_mem_body listed
      exact Nat.le_trans (span_le_position laid listed)
        (Nat.le_trans (Nat.le_of_lt (laid.lt_positionAfter inside)) (Program.positionAfter_le_last _ _))

/-- Every state that a recovery passes through is in order. -/
theorem orderly_of_passes (laid : input.program.IsLaidOut) (passes : input.Passes sub state tasks) :
    ∃ time, input.Orderly sub time [] state ∧ Scheduled input sub time state tasks := by
  have whole : ∀ {reached : Recovery × List Task},
      Relation.ReflTransGen (Step input) (input.start sub, input.agenda sub) reached →
        ∃ time, input.Orderly sub time [] reached.1 ∧ Scheduled input sub time reached.1 reached.2 := by
    intro reached path
    induction path with
    | refl => exact ⟨_, input.start_orderly sub, .between (start_areLater laid sub)⟩
    | tail _ step induction =>
        obtain ⟨time, orderly, scheduled⟩ := induction
        cases step with
        | advance runs =>
            obtain ⟨last, -, kept⟩ := scheduled.advance laid orderly runs
            exact ⟨last, kept⟩
  exact whole passes

/-- What is opened is compared with the end of the open node around it; jumps that leave the subroutine
are not compared with its end. -/
def IsCompared (input : RecoveryInput) (sub : Nat) (state : Recovery) (inner outer : NodeId) : Prop :=
  (state.tree.node inner).isChecked ∧ (outer = ScriptTree.root → input.IsConfined sub)

/-- The next task opens a branch, an else branch or a loop inside what is open around it. -/
inductive Begins (input : RecoveryInput) (state : Recovery) : Task → Recovery → Body → Prop
  /-- The outermost of the loops that begin here. -/
  | loop (latch : Nat) : Begins input state (.openOuterLoop latch) state
      { start := state.position, limit := input.program.positionAfter latch }
  /-- The else branch behind a branch that has ended. -/
  | otherwise {scope : Scope} {outer : List Scope} {position count skip : Nat}
      (scopes : state.scopes = scope :: outer) (ended : state.limit scope.node ≤ position)
      (skips : Recovery.skip? (state.tree.node scope.node) = some skip) :
      Begins input state (.close position (count + 1)) { state with scopes := outer }
        { start := state.limit scope.node, limit := skip }
  /-- The body that a conditional jump guards. -/
  | branch {command destination : Nat} (opcode : input.program.opcode command = .jumpZero)
      {live : CodeState} (alive : input.table.state command = .ok live) (guards : live ≠ .shortCircuit)
      (leads : input.table.destination command = .ok (some destination))
      (no_while : Recover.testedWhile? state (input.program.position destination) = none)
      (no_do : Recover.testedDo? state (input.program.position destination) = none) :
      Begins input state (.execute command) { state with track := none }
        { start := input.program.positionAfter command, limit := input.program.position destination }

/-- A branch that would end behind the scope around it is not opened. -/
theorem openBranch_fails (start : Nat) {target : Nat} (escapes : state.escapes target) :
    ∃ position obstacle, Fails (openBranch start target) state (.unclassified position obstacle) := by
  by_cases backwards : target < start
  · refine ⟨state.position, .conditionalBackwards target, (Runs.reads state).thenFails ?_⟩
    rw [if_pos backwards]
    exact unclassified_fails _ _
  · refine ⟨state.position, .branchEscapes target, (Runs.reads state).thenFails ?_⟩
    rw [if_neg backwards, if_pos escapes]
    exact unclassified_fails _ _

/-- What would end behind the scope around it is not opened. -/
theorem Begins.fails {task : Task} {around : Recovery} {body : Body}
    (begins : input.Begins state task around body) (escapes : around.escapes body.limit) :
    ∃ position obstacle, Fails (task.advance input) state (.unclassified position obstacle) := by
  cases begins with
  | loop latch =>
      refine ⟨state.position, .loopEscapes (input.program.positionAfter latch), Fails.bind ?_⟩
      refine (Runs.reads state).thenFails ?_
      rw [if_pos escapes]
      exact unclassified_fails _ _
  | @otherwise scope outer position count skip scopes ended skips =>
      refine ⟨state.limit scope.node, .elseEscapes skip, (Runs.reads state).thenFails ?_⟩
      rw [scopes]
      dsimp only
      rw [if_pos ended]
      refine Fails.bind ((Runs.changes _ state).thenFails ((Runs.reads _).thenFails ?_))
      dsimp only
      rw [skips]
      refine (Runs.reads _).thenFails ?_
      rw [if_pos escapes]
      rfl
  | @branch command destination opcode live alive guards leads no_while no_do =>
      have other : input.program.opcode command ≠ .jumpNonzero := by
        rw [opcode]
        decide
      obtain ⟨position, obstacle, guarded⟩ := openBranch_fails
        (input.program.positionAfter command) escapes
      refine ⟨position, obstacle, Fails.bind ((Runs.reads state).thenFails
        ((Runs.changes _ state).thenFails ?_))⟩
      have same : (input.program.instruction command).opcode = .jumpZero := opcode
      unfold Recover.execute
      dsimp only
      rw [same]
      refine (Runs.lift alive _).thenFails ?_
      rw [if_neg guards]
      have found : Runs (targetOf input command .conditionalWithoutDestination)
          { state with track := none } destination { state with track := none } :=
        (Runs.lift leads _).bind (.done _ _)
      refine found.thenFails ?_
      dsimp only
      rw [if_neg other]
      refine (Runs.reads _).thenFails ?_
      have no_while' : testedWhile? { state with track := none }
          (input.program.position destination) = none := no_while
      have no_do' : testedDo? { state with track := none }
          (input.program.position destination) = none := no_do
      rw [no_while', no_do']
      exact guarded

/-- A program with one subroutine, all its instructions being live. -/
def ofLiveCode (code : List Instruction) (filled : code ≠ [])
    (actions : List (Nat × ActionSignature)) : RecoveryInput where
  program := .ofCode code filled
  table := Liveness.markedTable (.ofCode code filled) (Array.replicate code.length true)
  calls := ⟨⟨#[[]], #[[]], 0⟩, Array.replicate code.length none, [[0]]⟩
  catalog := ⟨actions⟩
  protos := #[Prototype.install {} [] [] .void none]
  globals := []
  layout := ⟨0, none, none, none, 0⟩
  names := ["main"]
  settings := {}

/-- A branch ends at position 39, and the branch that begins in it at position 41. -/
def overlapping : RecoveryInput :=
  ofLiveCode [.constant (.int 1), .jump .jumpZero 20, .constant (.int 1), .jump .jumpZero 10,
    .simple .nop .void, .simple .nop .void, .simple .ret .void] (by simp) []

/-- Open scopes are nested exactly if those are that nothing is compared with: deferred arguments,
switches, cases, and what jumps out of the subroutine.  No construct begins before the open node around
it, and none that is compared with the scope around it and ends behind it is ever opened: the recovery
fails. -/
theorem open_scopes_nested_iff (laid : input.program.IsLaidOut)
    (passes : input.Passes sub state tasks) :
    (state.IsNested ↔ state.openNodes.IsChain fun inner outer =>
        ¬input.IsCompared sub state inner outer → state.Within inner outer) ∧
      (state.openNodes.IsChain fun inner outer => (state.tree.node inner).isConstruct →
        (state.range outer).1 ≤ (state.range inner).1) ∧
      ∀ task rest around body, tasks = task :: rest → input.Begins state task around body →
        around.scopes ≠ [] → around.limit around.current < body.limit →
          ∃ position obstacle, input.run sub = .error (.unclassified position obstacle) := by
  obtain ⟨time, orderly, -⟩ := orderly_of_passes laid passes
  refine ⟨⟨fun nested => ?_, fun others => ?_⟩, ?_, ?_⟩
  · exact nested.imp fun _ _ within _ => within
  · rw [Recovery.IsNested, List.isChain_iff_getElem]
    intro index inside
    have respects := List.isChain_iff_getElem.mp orderly.chain index inside
    by_cases compared : input.IsCompared sub state state.openNodes[index] state.openNodes[index + 1]
    · exact ⟨respects.start (Node.isConstruct_of_isChecked compared.1),
        respects.limit compared.1 compared.2⟩
    · exact List.isChain_iff_getElem.mp others index inside compared
  · exact orderly.chain.imp fun _ _ respects => respects.start
  · rintro task rest around body rfl begins inside behind
    have escapes : around.escapes body.limit := by
      simp [Recovery.escapes, inside, behind]
    obtain ⟨position, obstacle, fails⟩ := begins.fails escapes
    exact ⟨position, obstacle, run_eq_error_of_passes passes fails⟩

/-- A branch lies within the subroutine; the branch inside it that ends behind it fails the recovery. -/
theorem open_scopes_nested_overlapping : ∃ state tasks, overlapping.Passes 0 state tasks ∧
    state.scopes.length = 1 ∧ state.IsNested ∧
      ∃ position obstacle, overlapping.run 0 = .error (.unclassified position obstacle) := by
  have laid : overlapping.program.IsLaidOut :=
    (Program.isAlone_ofCode _ (by simp)).isLaidOut (by decide)
  have alive : overlapping.table.state 3 = .ok .normal := by decide +kernel
  have leads : overlapping.table.destination 3 = .ok (some 6) := by decide +kernel
  have check : (overlapping.follow 19 (overlapping.start 0, overlapping.agenda 0)).toOption.any
      (fun reached => reached.1.scopes.length = 1 ∧ reached.1.openNodes.IsChain reached.1.Within ∧
        reached.2.head? = some (.execute 3) ∧ testedWhile? reached.1 41 = none ∧
        testedDo? reached.1 41 = none ∧ reached.1.limit reached.1.current < 41) = true := by
    decide +kernel
  cases followed : overlapping.follow 19 (overlapping.start 0, overlapping.agenda 0) with
  | error fault => simp [followed, Except.toOption] at check
  | ok reached =>
      simp only [followed, Except.toOption, Option.any_some, decide_eq_true_eq] at check
      obtain ⟨one, within, next, no_while, no_do, behind⟩ := check
      have passes : overlapping.Passes 0 reached.1 reached.2 := passes_of_follow followed
      obtain ⟨nested, -, rejects⟩ := open_scopes_nested_iff laid passes
      refine ⟨reached.1, reached.2, passes, one, nested.mpr (within.imp fun _ _ inner _ => inner), ?_⟩
      obtain ⟨rest, tasks⟩ := List.head?_eq_some_iff.mp next
      have inside : reached.1.scopes ≠ [] := by
        rintro empty
        rw [empty] at one
        cases one
      have begins : overlapping.Begins reached.1 (.execute 3) { reached.1 with track := none }
          { start := overlapping.program.positionAfter 3, limit := overlapping.program.position 6 } :=
        .branch (by decide) alive (by decide) leads no_while no_do
      exact rejects _ rest _ _ tasks begins inside behind

/-- A branch ends at position 51, and the deferred argument that begins in it at position 53. -/
def deferring : RecoveryInput :=
  ofLiveCode [.constant (.int 1), .jump .jumpZero 32, ⟨.storeState, .void, .state 0 0⟩,
    .jump .jump 18, .constant (.string "a"), ⟨.action, .void, .action 1 1⟩, .simple .ret .void,
    ⟨.action, .void, .action 9 1⟩, .simple .ret .void] (by simp)
    [(1, .plain "PrintString" .void [.string]), (9, .plain "ActionDo" .void [.action])]

/-- A deferred argument is opened although it ends behind the branch around it, and the recovery
succeeds. -/
theorem open_scopes_overlap_deferring : ∃ state tasks, deferring.Passes 0 state tasks ∧
    ¬state.IsNested ∧ ∃ last, deferring.run 0 = .ok last := by
  have check : (deferring.follow 20 (deferring.start 0, deferring.agenda 0)).toOption.any
      (fun reached => ¬reached.1.IsNested) = true := by decide +kernel
  have succeeds : (deferring.run 0).toOption.isSome = true := by decide +kernel
  cases followed : deferring.follow 20 (deferring.start 0, deferring.agenda 0) with
  | error fault => simp [followed, Except.toOption] at check
  | ok reached =>
      simp only [followed, Except.toOption, Option.any_some, decide_eq_true_eq] at check
      refine ⟨reached.1, reached.2, passes_of_follow followed, check, ?_⟩
      cases ended : deferring.run 0 with
      | error fault => simp [ended, Except.toOption] at succeeds
      | ok last => exact ⟨last, rfl⟩

end RecoveryInput
end NwScript
