import NwScript.Layout
import NwScript.Settings
import NwScript.Typing.Fallback
import NwScript.Typing.Paths

/-!
# Type inference

Prototypes are inferred component by component of the call graph, callees first.  Inside a component
the passes try more and more paths, and each prototype found lets others go on.  What no pass settles
is guessed.  Afterwards prototypes learn from each other in rounds until nothing changes.
-/

namespace NwScript

/-- Something that strict runs report. -/
inductive Warning where
  /-- The search for a prototype was given up. -/
  | gaveUp (sub : Nat) (fault : Fault)
  /-- A prototype was guessed. -/
  | assumed (sub : Nat) (guess : SlotGuess)
  deriving DecidableEq, Repr, Inhabited

namespace Warning

/-- The wording of a warning. -/
def message : Warning → String
  | gaveUp sub fault => "sub " ++ toString sub ++ ": " ++ fault.message
  | assumed sub guess =>
      "sub " ++ toString sub ++ ": prototype did not converge, assuming " ++
        toString guess.slots ++ " parameter slots (call sites " ++ toString guess.callSites ++
        ", epilogue " ++ toString guess.epilogue ++ ")"

end Warning

/-- What inference reads and never changes. -/
structure InferenceInput where
  /-- The program. -/
  program : Program
  /-- Its calls. -/
  calls : CallGraph
  /-- Engine actions. -/
  catalog : ActionCatalog
  /-- The settings of the run. -/
  settings : Settings

/-- What inference has found so far. -/
structure InferenceState where
  /-- Prototypes by subroutine. -/
  protos : Array Prototype
  /-- The flow table, which receives stack heights. -/
  table : FlowTable
  /-- Decisions queued for each subroutine. -/
  queued : Array Nat
  /-- Subroutines whose search was given up. -/
  failures : List (Nat × Fault) := []
  /-- Reports, in order; none unless the run is strict. -/
  warnings : List Warning := []
  deriving Repr, Inhabited

/-- Prototypes and global types of a program. -/
structure Inference where
  /-- Prototypes by subroutine. -/
  protos : Array Prototype
  /-- Types of the global slots, bottom first. -/
  globals : List Ty
  /-- Subroutines whose search was given up, and why. -/
  failures : List (Nat × Fault)
  deriving Repr, Inhabited

namespace Inference

/-- Number of guessed prototypes. -/
def fallbackCount (inference : Inference) : Nat :=
  inference.protos.countP (·.flags.fallback)

end Inference

/-- A step of inference. -/
abbrev Infer (α : Type) := StateT InferenceState (Except Fault) α

namespace InferenceState

/-- The prototype of a subroutine. -/
def proto (state : InferenceState) (sub : Nat) : Prototype :=
  state.protos.getD sub {}

/-- Replace the prototype of a subroutine. -/
def setProto (state : InferenceState) (sub : Nat) (proto : Prototype) : InferenceState :=
  { state with protos := state.protos.setIfInBounds sub proto }

/-- No prototype is known and the search was not given up. -/
def isOpen (state : InferenceState) (sub : Nat) : Bool :=
  (state.proto sub).status = .notStarted || (state.proto sub).status = .inProgress

/-- Apply what a walk showed about the parameters of callees; says how many changed. -/
def refineCallees (state : InferenceState) (refinements : List Refinement) :
    Nat × InferenceState :=
  refinements.foldl
    (fun (changes, state) refinement =>
      let (changed, proto) :=
        (state.proto refinement.callee).refineParam refinement.slot refinement.type
      (changes + changed.toNat, state.setProto refinement.callee proto))
    (0, state)

/-- Record the stack heights that a walk met. -/
def recordHeights (state : InferenceState) (heights : List (Nat × Int)) :
    Except Fault InferenceState := do
  let table ← heights.foldlM
    (fun table (command, height) => FlowTable.setHeight table command height) state.table
  return { state with table }

end InferenceState

namespace InferenceInput

/-- Limits of the search. -/
abbrev limits (input : InferenceInput) : SearchLimits :=
  input.settings.limits

/-- Report something if the run is strict. -/
def report (input : InferenceInput) (warning : Warning) (state : InferenceState) : InferenceState :=
  if input.settings.strict then { state with warnings := state.warnings ++ [warning] } else state

section Report

variable (input : InferenceInput) (warning : Warning) (state : InferenceState)

@[simp] theorem protos_report : (input.report warning state).protos = state.protos := by
  unfold report
  split <;> rfl

@[simp] theorem proto_report (sub : Nat) :
    (input.report warning state).proto sub = state.proto sub :=
  congrArg (·.getD sub {}) (input.protos_report warning state)

@[simp] theorem table_report : (input.report warning state).table = state.table := by
  unfold report
  split <;> rfl

@[simp] theorem queued_report : (input.report warning state).queued = state.queued := by
  unfold report
  split <;> rfl

@[simp] theorem failures_report : (input.report warning state).failures = state.failures := by
  unfold report
  split <;> rfl

end Report

/-- The context of walks through a subroutine. -/
def context (input : InferenceInput) (state : InferenceState) (globals : List Ty) (sub : Nat) :
    TypingContext where
  program := input.program
  table := state.table
  calls := input.calls
  catalog := input.catalog
  globals := globals.toArray
  protos := state.protos
  sub := sub

/-- Explore a subroutine from scratch; its prototype keeps the decisions of the last path. -/
def explore (input : InferenceInput) (globals : List Ty) (budget : Option Nat) (queued sub : Nat) :
    Infer (PathResult × Nat) := do
  let state ← get
  let context := input.context state globals sub
  let exploration ← context.explore budget input.limits.maxDecisions queued .empty
  set (state.setProto sub { state.proto sub with decisions := exploration.queue })
  return (exploration.result, exploration.queued)

/-- Apply the evidence that a walk gives about other subroutines; says how many types changed. -/
def applyEvidence (outcome : WalkOutcome) : Infer Nat := do
  let (changes, state) := (← get).refineCallees outcome.refinements
  set (← state.recordHeights outcome.heights)
  return changes

/-- Install the prototype that a walk gives. -/
def settle (sub : Nat) (outcome : WalkOutcome) : Infer Unit := do
  modify fun state =>
    state.setProto sub
      ((state.proto sub).install outcome.slots outcome.groups outcome.returnType
        outcome.returnDepth)
  let _ ← applyEvidence outcome

/-- The fault of a search that queued too many decisions. -/
def limitFault (input : InferenceInput) (sub : Nat) : Fault :=
  .decisionLimit sub input.limits.maxDecisions

/-- Give up the search for a prototype. -/
def giveUp (input : InferenceInput) (sub : Nat) (state : InferenceState) : InferenceState :=
  let reported := input.report (.gaveUp sub (input.limitFault sub)) state
  let failed := reported.setProto sub { reported.proto sub with status := .failed }
  { failed with failures := failed.failures ++ [(sub, input.limitFault sub)] }

section GiveUp

variable (input : InferenceInput) (sub : Nat) (state : InferenceState)

@[simp] theorem protos_giveUp : (input.giveUp sub state).protos =
    (state.setProto sub { state.proto sub with status := .failed }).protos := by
  simp [giveUp, InferenceState.setProto, InferenceState.proto]

@[simp] theorem proto_giveUp (other : Nat) : (input.giveUp sub state).proto other =
    (state.setProto sub { state.proto sub with status := .failed }).proto other :=
  congrArg (·.getD other {}) (input.protos_giveUp sub state)

@[simp] theorem table_giveUp : (input.giveUp sub state).table = state.table := by
  simp [giveUp, InferenceState.setProto]

@[simp] theorem failures_giveUp : (input.giveUp sub state).failures =
    state.failures ++ [(sub, input.limitFault sub)] := by
  simp [giveUp, InferenceState.setProto]

end GiveUp

/-- Try to settle one open subroutine; says whether that succeeded. -/
def attempt (input : InferenceInput) (globals : List Ty) (budget : Option Nat) (sub : Nat) :
    Infer Bool := do
  if (← get).isOpen sub then
    modify fun state => state.setProto sub { state.proto sub with status := .inProgress }
    let (result, queued) ← input.explore globals budget ((← get).queued.getD sub 0) sub
    modify fun state => { state with queued := state.queued.setIfInBounds sub queued }
    match result with
    | .found outcome =>
        settle sub outcome
        return true
    | .blocked _ => return false
    | .limitExceeded =>
        modify (input.giveUp sub)
        return false
  else
    return false

/-- Try each subroutine of a component once; says whether any was settled. -/
def attemptAll (input : InferenceInput) (globals : List Ty) (budget : Option Nat)
    (component : List Nat) : Infer Bool :=
  component.foldlM
    (fun progress sub => return (← input.attempt globals budget sub) || progress) false

/-- Repeat attempts while they settle something, at most `rounds` times. -/
def pass (input : InferenceInput) (globals : List Ty) (budget : Option Nat)
    (component : List Nat) : (rounds : Nat) → Infer Unit
  | 0 => pure ()
  | rounds + 1 => do
      if ← input.attemptAll globals budget component then
        input.pass globals budget component rounds

/-- Run the passes while some subroutine of a component is open.  Each round but the last settles one,
which bounds the rounds of a pass. -/
def passes (input : InferenceInput) (globals : List Ty) (component : List Nat) :
    List (Option Nat) → Infer Unit
  | [] => pure ()
  | budget :: budgets => do
      if component.any (← get).isOpen then
        input.pass globals budget component (component.length + 1)
        input.passes globals component budgets

/-- Guess the prototype of a subroutine that has none. -/
def guess (input : InferenceInput) (sub : Nat) : Infer Unit := do
  let state ← get
  if !(state.proto sub).isPrototyped then
    let evidence : CallSites.Evidence :=
      { program := input.program, table := state.table, calls := input.calls,
        catalog := input.catalog }
    let guess ← SlotGuess.ofSub evidence state.protos sub
    let guessed := state.setProto sub ((state.proto sub).installGuess guess)
    set (input.report (.assumed sub guess) guessed)

/-- Give every subroutine of a component a prototype. -/
def solveComponent (input : InferenceInput) (globals : List Ty) (component : List Nat) :
    Infer Unit := do
  input.passes globals component input.limits.passBudgets
  component.forM input.guess

/-- The global types, when the initializer can be walked with the prototypes known so far. -/
def findGlobals (input : InferenceInput) (layout : Layout) (state : InferenceState) :
    Except Fault (Option (List Ty)) :=
  match layout.globals with
  | none => .ok (some [])
  | some sub => do
      match ← (input.context state [] sub).globalTypes input.limits.maxDecisions with
      | .known types => return some types
      | .blocked _ => return none
      | .missing => return some []

/-- A subroutine that may still learn something: itself or a callee is not fully typed, or its
prototype was guessed. -/
def needsRefinement (input : InferenceInput) (state : InferenceState) (sub : Nat) : Bool :=
  !(state.proto sub).isFullyTyped || (state.proto sub).flags.fallback ||
    (input.calls.callees sub).any fun callee => !(state.proto callee).isFullyTyped

/-- Type the unknown parameter slots of a prototype; says how many changed. -/
def refineParams (proto : Prototype) (types : List Ty) : Nat × Prototype :=
  types.zipIdx.foldl
    (fun (changes, proto) (type, slot) =>
      let (changed, proto) := proto.refineParam slot type
      (changes + changed.toNat, proto))
    (0, proto)

/-- Merge another outcome into a prototype: replace a guess, or fill in what is unknown when the
number of slots agrees.  Says how much changed. -/
def mergeOutcome (proto : Prototype) (outcome : WalkOutcome) : Nat × Prototype :=
  if proto.flags.fallback then
    let installed := proto.install outcome.slots outcome.groups outcome.returnType
      outcome.returnDepth
    (1, { installed with flags := { installed.flags with fallback := false } })
  else if outcome.slots.length = proto.slots.length then
    let (changes, proto) := refineParams proto outcome.slots
    let (changed, proto) := proto.refineReturn outcome.returnType
    (changes + changed.toNat, proto)
  else
    (0, proto)

/-- Merge another outcome into the prototype of a subroutine and of its callees. -/
def merge (sub : Nat) (outcome : WalkOutcome) : Infer Nat := do
  let state ← get
  let (changes, proto) := mergeOutcome (state.proto sub) outcome
  set (state.setProto sub proto)
  return changes + (← applyEvidence outcome)

/-- Refine one subroutine if it may learn something; says how much changed. -/
def refineOne (input : InferenceInput) (globals : List Ty) (sub : Nat) : Infer Nat := do
  if input.needsRefinement (← get) sub then
    match (← input.explore globals input.limits.refinementBudget 0 sub).1 with
    | .found outcome => merge sub outcome
    | _ => return 0
  else
    return 0

/-- One round of refinement, callees first; says how much changed. -/
def refineRound (input : InferenceInput) (globals : List Ty) : Infer Nat :=
  input.calls.components.flatten.foldlM
    (fun changes sub => return changes + (← input.refineOne globals sub)) 0

/-- Refine in rounds until one changes nothing, at most `rounds` times. -/
def refine (input : InferenceInput) (globals : List Ty) : (rounds : Nat) → Infer Unit
  | 0 => pure ()
  | rounds + 1 => do
      if (← input.refineRound globals) ≠ 0 then
        input.refine globals rounds

/-- The prototype of a subroutine before inference. -/
def initialProto (input : InferenceInput) (layout : Layout) (sub : Nat) : Prototype :=
  { flags :=
      { recursive := input.calls.isRecursive sub
        main := sub = layout.main
        globals := layout.globals = some sub } }

/-- The state before inference. -/
def initialState (input : InferenceInput) (layout : Layout) (table : FlowTable) :
    InferenceState where
  protos := (input.program.subroutines.map (input.initialProto layout)).toArray
  table := table
  queued := Array.replicate input.program.subroutineCount 0

/-- Infer all prototypes and the global types. -/
def infer (input : InferenceInput) (layout : Layout) : Infer Inference := do
  let before ← input.findGlobals layout (← get)
  input.calls.components.forM (input.solveComponent (before.getD []))
  let globals ← match before with
    | some globals => pure globals
    | none => pure ((← input.findGlobals layout (← get)).getD [])
  input.refine globals input.limits.refinementRounds
  let state ← get
  return ⟨state.protos, globals, state.failures⟩

end InferenceInput
end NwScript
