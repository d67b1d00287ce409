import NwScript.Proofs.RefinementRounds
import NwScript.SourceProgram

/-!
# Strict runs

A strict run reports the searches that it gives up and the prototypes that it guesses.  Each step of
inference does the same in a strict run as in any other, and the states before and after differ in their
reports only.  Recovery reads the settings for the spelling of its result alone, so the source text does not
depend on reports at all.
-/

namespace NwScript

/-- The same settings for a run that is strict or not. -/
def Settings.withStrict (settings : Settings) (strict : Bool) : Settings :=
  { settings with strict }

namespace InferenceState

/-- The state without its reports. -/
def quiet (state : InferenceState) : InferenceState :=
  { state with warnings := [] }

variable (state : InferenceState)

theorem refineCallees_quiet (refinements : List Refinement) :
    state.quiet.refineCallees refinements =
      ((state.refineCallees refinements).1, (state.refineCallees refinements).2.quiet) := by
  unfold refineCallees
  suffices same : ∀ changes : Nat, refinements.foldl _ (changes, state.quiet) =
      ((refinements.foldl _ (changes, state)).1, (refinements.foldl _ (changes, state)).2.quiet) from
    same 0
  intro changes
  induction refinements generalizing state changes with
  | nil => rfl
  | cons refinement refinements induction =>
      exact induction (state.setProto refinement.callee
        ((state.proto refinement.callee).refineParam refinement.slot refinement.type).2) _

theorem recordHeights_quiet (heights : List (Nat × Int)) :
    state.quiet.recordHeights heights = (state.recordHeights heights).map quiet := by
  rw [recordHeights_eq, recordHeights_eq, quiet]
  cases heights.foldlM (fun table entry => FlowTable.setHeight table entry.1 entry.2) state.table <;>
    rfl

end InferenceState

/-! ### Two runs at once -/

namespace Infer

variable {α β ι : Type} {state : InferenceState}

/-- From a state, one step does without reports what another does with them. -/
def Hushes (state : InferenceState) (loud hushed : Infer α) : Prop :=
  hushed.run state.quiet = (loud.run state).map fun pair => (pair.1, pair.2.quiet)

theorem Hushes.value (value : α) : Hushes state (pure value) (pure value) := rfl

theorem Hushes.bind {loud hushed : Infer α} {next follow : α → Infer β}
    (first : Hushes state loud hushed)
    (second : ∀ value after, Hushes after (next value) (follow value)) :
    Hushes state (loud >>= next) (hushed >>= follow) := by
  unfold Hushes
  rw [StateT.run_bind, StateT.run_bind, first]
  cases loud.run state with
  | error fault => rfl
  | ok pair => exact second pair.1 pair.2

theorem Hushes.reads {next follow : InferenceState → Infer α}
    (rest : Hushes state (next state) (follow state.quiet)) :
    Hushes state (get >>= next) (get >>= follow) := rest

theorem Hushes.writes {after hushed : InferenceState} (same : hushed = after.quiet) :
    Hushes state (set after) (set hushed) := by
  subst same
  rfl

theorem Hushes.changes {change hushed : InferenceState → InferenceState}
    (same : hushed state.quiet = (change state).quiet) :
    Hushes state (modify change) (modify hushed) :=
  congrArg (fun after => (.ok ((), after) : Except Fault (Unit × InferenceState))) same

theorem Hushes.lift (outcome : Except Fault α) :
    Hushes state (liftM outcome : Infer α) (liftM outcome) := by
  cases outcome <;> rfl

theorem Hushes.branch {condition : Prop} [Decidable condition] {first second one other : Infer α}
    (yes : Hushes state first one) (no : Hushes state second other) :
    Hushes state (if condition then first else second) (if condition then one else other) := by
  split
  · exact yes
  · exact no

theorem Hushes.foldlM {items : List ι} {step hushed : α → ι → Infer α}
    (each : ∀ state value item, Hushes state (step value item) (hushed value item)) (start : α) :
    Hushes state (items.foldlM step start) (items.foldlM hushed start) := by
  induction items generalizing state start with
  | nil => exact .value start
  | cons item items induction =>
      rw [List.foldlM_cons, List.foldlM_cons]
      exact (each state start item).bind fun value _ => induction value

theorem Hushes.forM {items : List ι} {action hushed : ι → Infer Unit}
    (each : ∀ state item, Hushes state (action item) (hushed item)) :
    Hushes state (items.forM action) (items.forM hushed) := by
  induction items generalizing state with
  | nil => exact .value ()
  | cons item items induction => exact (each state item).bind fun _ _ => induction

end Infer

namespace InferenceInput

open Infer (Hushes)

/-- The same input for a run that is not strict. -/
def lenient (input : InferenceInput) : InferenceInput :=
  { input with settings := input.settings.withStrict false }

variable (input : InferenceInput) (globals : List Ty) (state : InferenceState)

theorem report_quiet (warning : Warning) : (input.report warning state).quiet = state.quiet := by
  unfold report
  split <;> rfl

theorem report_lenient (warning : Warning) : input.lenient.report warning state = state := rfl

theorem giveUp_quiet (sub : Nat) :
    input.lenient.giveUp sub state.quiet = (input.giveUp sub state).quiet := by
  simp only [giveUp, report_lenient]
  unfold report
  split <;> rfl

theorem explore_hushes (budget : Option Nat) (queued sub : Nat) :
    Hushes state (input.explore globals budget queued sub)
      (input.lenient.explore globals budget queued sub) := by
  unfold explore
  refine .reads ?_
  exact (Hushes.lift ((input.context state globals sub).explore budget input.limits.maxDecisions
    queued .empty)).bind fun exploration after => (Hushes.writes rfl).bind fun _ _ => .value _

theorem applyEvidence_hushes (outcome : WalkOutcome) :
    Hushes state (applyEvidence outcome) (applyEvidence outcome) := by
  unfold applyEvidence
  refine .reads ?_
  rw [state.refineCallees_quiet]
  dsimp only
  rw [InferenceState.recordHeights_quiet]
  cases (state.refineCallees outcome.refinements).2.recordHeights outcome.heights <;> rfl

theorem settle_hushes (sub : Nat) (outcome : WalkOutcome) :
    Hushes state (settle sub outcome) (settle sub outcome) := by
  unfold settle
  exact .bind (.changes rfl) fun _ after =>
    (applyEvidence_hushes after outcome).bind fun _ _ => .value _

theorem attempt_hushes (budget : Option Nat) (sub : Nat) :
    Hushes state (input.attempt globals budget sub) (input.lenient.attempt globals budget sub) := by
  unfold attempt
  refine .reads (.branch ?_ (.value false))
  refine .bind (.changes rfl) fun _ started => .reads ?_
  refine (input.explore_hushes globals started budget _ sub).bind fun answer explored => ?_
  refine .bind (.changes rfl) fun _ noted => ?_
  cases answer.1 with
  | found outcome => exact (settle_hushes noted sub outcome).bind fun _ _ => .value true
  | blocked callee => exact .value false
  | limitExceeded =>
      exact (Hushes.changes (input.giveUp_quiet noted sub)).bind fun _ _ => .value false

theorem attemptAll_hushes (budget : Option Nat) (component : List Nat) :
    Hushes state (input.attemptAll globals budget component)
      (input.lenient.attemptAll globals budget component) :=
  .foldlM (fun state _ sub => (input.attempt_hushes globals state budget sub).bind fun _ _ =>
    .value _) false

theorem pass_hushes (budget : Option Nat) (component : List Nat) (rounds : Nat) :
    Hushes state (input.pass globals budget component rounds)
      (input.lenient.pass globals budget component rounds) := by
  induction rounds generalizing state with
  | zero => exact .value ()
  | succ rounds induction =>
      unfold pass
      exact (input.attemptAll_hushes globals state budget component).bind fun progress after =>
        .branch (induction after) (.value ())

theorem passes_hushes (component : List Nat) (budgets : List (Option Nat)) :
    Hushes state (input.passes globals component budgets)
      (input.lenient.passes globals component budgets) := by
  induction budgets generalizing state with
  | nil => exact .value ()
  | cons budget budgets induction =>
      unfold passes
      exact .reads (.branch ((input.pass_hushes globals state budget component _).bind
        fun _ after => induction after) (.value ()))

theorem guess_hushes (sub : Nat) : Hushes state (input.guess sub) (input.lenient.guess sub) := by
  unfold guess
  refine .reads (.branch ?_ (.value ()))
  refine (Hushes.lift (SlotGuess.ofSub ⟨input.program, state.table, input.calls, input.catalog⟩
    state.protos sub)).bind fun guess _ => .writes ?_
  rw [report_lenient, report_quiet]
  rfl

theorem solveComponent_hushes (component : List Nat) :
    Hushes state (input.solveComponent globals component)
      (input.lenient.solveComponent globals component) :=
  (input.passes_hushes globals state component _).bind fun _ _ =>
    .forM fun state sub => input.guess_hushes state sub

theorem merge_hushes (sub : Nat) (outcome : WalkOutcome) :
    Hushes state (merge sub outcome) (merge sub outcome) := by
  unfold merge
  refine .reads ?_
  exact (Hushes.writes rfl).bind fun _ after =>
    (applyEvidence_hushes after outcome).bind fun _ _ => .value _

theorem refineOne_hushes (sub : Nat) :
    Hushes state (input.refineOne globals sub) (input.lenient.refineOne globals sub) := by
  unfold refineOne
  refine .reads (.branch ?_ (.value 0))
  refine (input.explore_hushes globals state _ 0 sub).bind fun answer after => ?_
  cases answer.1 with
  | found outcome => exact merge_hushes after sub outcome
  | blocked callee => exact .value 0
  | limitExceeded => exact .value 0

theorem refineRound_hushes :
    Hushes state (input.refineRound globals) (input.lenient.refineRound globals) :=
  .foldlM (fun state _ sub => (input.refineOne_hushes globals state sub).bind fun _ _ => .value _) 0

theorem refine_hushes (rounds : Nat) :
    Hushes state (input.refine globals rounds) (input.lenient.refine globals rounds) := by
  induction rounds generalizing state with
  | zero => exact .value ()
  | succ rounds induction =>
      unfold refine
      exact (input.refineRound_hushes globals state).bind fun changes after =>
        .branch (induction after) (.value ())

/-- Inference that is not strict finds what strict inference finds, and reports nothing. -/
theorem infer_hushes (layout : Layout) :
    Hushes state (input.infer layout) (input.lenient.infer layout) := by
  have rest : ∀ (globals : List Ty) (state : InferenceState), Hushes state
      (do
        input.refine globals input.limits.refinementRounds
        let state ← get
        return ⟨state.protos, globals, state.failures⟩ : Infer Inference)
      (do
        input.lenient.refine globals input.limits.refinementRounds
        let state ← get
        return ⟨state.protos, globals, state.failures⟩ : Infer Inference) := by
    intro globals state
    exact (input.refine_hushes globals state _).bind fun _ _ => .reads (.value _)
  unfold infer
  refine .reads ((Hushes.lift (input.findGlobals layout state)).bind fun before found => ?_)
  refine (Hushes.forM fun state component =>
    input.solveComponent_hushes _ state component).bind fun _ solved => ?_
  cases before with
  | some globals => exact rest globals solved
  | none =>
      exact .reads ((Hushes.lift (input.findGlobals layout solved)).bind fun again => rest _)

end InferenceInput

namespace Analysis

/-- The analysis without its reports. -/
def quiet (analysis : Analysis) : Analysis :=
  { analysis with warnings := [] }

/-- A run that is not strict gives what a strict one gives, but for the reports. -/
theorem ofProgram_lenient (program : Program) (catalog : ActionCatalog) (settings : Settings) :
    ofProgram program catalog (settings.withStrict false) =
      (ofProgram program catalog settings).map quiet := by
  show _ = quiet <$> ofProgram program catalog settings
  unfold ofProgram
  simp only [map_bind]
  refine bind_congr fun table => bind_congr fun calls => bind_congr fun layout => ?_
  let input : InferenceInput := ⟨program, calls, catalog, settings⟩
  let finish (pair : Inference × InferenceState) : Except Fault Analysis :=
    .ok ⟨pair.2.table, calls, layout, pair.1, pair.2.warnings⟩
  have hushed := input.infer_hushes (input.initialState layout table) layout
  refine (congrArg (· >>= finish) hushed).trans ?_
  show _ = (input.infer layout).run (input.initialState layout table) >>= _
  cases (input.infer layout).run (input.initialState layout table) <;> rfl

end Analysis

/-! ### Recovery under other settings -/

namespace RecoveryInput

/-- The same input with other settings. -/
def withSettings (input : RecoveryInput) (settings : Settings) : RecoveryInput :=
  { input with settings }

variable (input : RecoveryInput) (settings : Settings)

theorem firstLive_withSettings (commands : List Nat) :
    (input.withSettings settings).firstLive commands = input.firstLive commands := by
  induction commands with
  | nil => rfl
  | cons command commands induction =>
      rw [firstLive, firstLive, induction]
      rfl

theorem nextLive_withSettings (command : Nat) :
    (input.withSettings settings).nextLive command = input.nextLive command :=
  input.firstLive_withSettings settings _

theorem scanFrom_withSettings (starts : List Nat) (count : Nat) (scan : SwitchScan) :
    (input.withSettings settings).scanFrom starts count scan = input.scanFrom starts count scan := by
  induction count generalizing scan with
  | zero => rfl
  | succ count induction =>
      rw [scanFrom, scanFrom]
      simp only [induction]
      rfl

theorem switchEnd_withSettings (jump : Nat) (starts : List Nat) (default : Nat) :
    (input.withSettings settings).switchEnd jump starts default =
      input.switchEnd jump starts default :=
  input.scanFrom_withSettings settings _ _ _

end RecoveryInput

namespace Recover

variable (input : RecoveryInput) (settings : Settings)

theorem latches_withSettings (position : Nat) (origins : List Nat) :
    latches (input.withSettings settings) position origins = latches input position origins := by
  induction origins with
  | nil => rfl
  | cons origin origins induction =>
      rw [latches, latches, induction]
      rfl

theorem openInnerLoops_withSettings (origins : List Nat) :
    openInnerLoops (input.withSettings settings) origins = openInnerLoops input origins := by
  induction origins with
  | nil => rfl
  | cons origin origins induction =>
      rw [openInnerLoops, openInnerLoops, induction]
      rfl

theorem openLoops_withSettings (command : Nat) :
    openLoops (input.withSettings settings) command = openLoops input command := by
  unfold openLoops
  simp only [latches_withSettings, openInnerLoops_withSettings]
  rfl

theorem popSlots_withSettings (command : Nat) :
    popSlots (input.withSettings settings) command = popSlots input command := by
  unfold popSlots wrapLocals continuesBehind
  simp only [RecoveryInput.nextLive_withSettings]
  rfl

theorem jump_withSettings (command : Nat) :
    jump (input.withSettings settings) command = jump input command := by
  unfold jump openSwitch
  simp only [RecoveryInput.switchEnd_withSettings]
  rfl

theorem leaveSubroutine_withSettings (command : Nat) :
    leaveSubroutine (input.withSettings settings) command = leaveSubroutine input command := by
  unfold leaveSubroutine
  simp only [RecoveryInput.nextLive_withSettings]

theorem execute_withSettings (command : Nat) (track : Option StepTrack) :
    execute (input.withSettings settings) command track = execute input command track := by
  unfold execute
  simp only [popSlots_withSettings, jump_withSettings, leaveSubroutine_withSettings]
  rfl

theorem visit_withSettings (command : Nat) :
    visit (input.withSettings settings) command = visit input command := by
  unfold visit
  simp only [openLoops_withSettings, execute_withSettings]
  rfl

/-- No statement depends on the settings. -/
theorem visitAll_withSettings (commands : List Nat) :
    visitAll (input.withSettings settings) commands = visitAll input commands := by
  induction commands with
  | nil => rfl
  | cons command commands induction =>
      rw [visitAll, visitAll, induction, visit_withSettings]
      rfl

end Recover

namespace RecoveryInput

variable (input : RecoveryInput) (strict : Bool)

/-- The same input in a run that is strict or not. -/
def withStrict : RecoveryInput :=
  input.withSettings (input.settings.withStrict strict)

theorem recover_withStrict (sub : Nat) : (input.withStrict strict).recover sub = input.recover sub := by
  unfold recover run
  simp only [withStrict, Recover.visitAll_withSettings]
  rfl

theorem attempt_withStrict (sub : Nat) : (input.withStrict strict).attempt sub = input.attempt sub := by
  unfold attempt
  rw [recover_withStrict]

end RecoveryInput

namespace Analysis

variable (analysis : Analysis) (program : Program) (catalog : ActionCatalog) (settings : Settings)

theorem names_quiet : analysis.quiet.names program = analysis.names program := by
  unfold names
  suffices same : ∀ count : Nat, analysis.quiet.namesFrom count program.subroutines =
      analysis.namesFrom count program.subroutines from same 0
  induction program.subroutines with
  | nil => exact fun _ => rfl
  | cons sub subs induction =>
      intro count
      rw [namesFrom, namesFrom, induction, induction]
      rfl

end Analysis

namespace Program

variable (program : Program) (catalog : ActionCatalog) (settings : Settings)

/-- A run that is not strict gives the source text that a strict one gives. -/
theorem decompile_lenient :
    program.decompile catalog (settings.withStrict false) = program.decompile catalog settings := by
  unfold decompile
  rw [Analysis.ofProgram_lenient]
  cases Analysis.ofProgram program catalog settings with
  | error fault => rfl
  | ok analysis =>
      have attempts : ∀ names, (analysis.quiet.recoveryInput program catalog
          (settings.withStrict false) names).attempt =
            (analysis.recoveryInput program catalog settings names).attempt := fun names =>
        funext ((analysis.recoveryInput program catalog settings names).attempt_withStrict false)
      simp only [Except.map, bind, Except.bind, analysis.names_quiet, attempts]
      rfl

/-- A strict run is only louder.  Whatever the program, the catalog and the other settings, a strict run and
one that is not end in the same fault or give the same table, calls, layout, prototypes, global types and
failures, and the same source program.  The strict run may report something, and the other reports nothing. -/
theorem strict_only_reports :
    Analysis.ofProgram program catalog (settings.withStrict false) =
        (Analysis.ofProgram program catalog (settings.withStrict true)).map
          (fun analysis => { analysis with warnings := [] }) ∧
      program.decompile catalog (settings.withStrict false) =
        program.decompile catalog (settings.withStrict true) :=
  ⟨Analysis.ofProgram_lenient program catalog (settings.withStrict true),
    program.decompile_lenient catalog (settings.withStrict true)⟩

end Program
end NwScript
