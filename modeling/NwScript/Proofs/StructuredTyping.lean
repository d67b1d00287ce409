import NwScript.Proofs.StructuredCode

/-!
# Prototype of structured code

A walk through structured code finds every operand among the slots that it pushed itself, and nothing
is left of them at the return.  So no walk and no guess gives the subroutine a parameter.
-/

namespace NwScript

namespace TypeTrace

/-- A walk holds a number of slots of its own, has taken none from the caller and passed none on. -/
structure Carries (count : Nat) (trace : TypeTrace) : Prop where
  /-- The slots that were pushed. -/
  height : trace.frame.pushed.height = count
  /-- No slot of the caller was consumed. -/
  below : trace.frame.below = 0
  /-- No callee was called. -/
  learned : trace.refinements = []

section Carries

variable {trace : TypeTrace} {count : Nat}

theorem refinements_note (trace : TypeTrace) (slot : TypeSlot) (type : Ty) :
    (trace.note slot type).refinements = trace.refinements :=
  congrArg Prod.snd (trace.records_note slot type)

theorem Carries.note (carries : trace.Carries count) (slot : TypeSlot) (type : Ty) :
    (trace.note slot type).Carries count := by
  refine ⟨?_, ?_, ?_⟩
  · rw [frame_note]
    exact carries.height
  · rw [frame_note]
    exact carries.below
  · rw [refinements_note]
    exact carries.learned

theorem Carries.push (carries : trace.Carries count) (slot : TypeSlot) :
    (trace.push slot).Carries (count + 1) where
  height := by
    have height : trace.frame.pushed.slots.size = count := carries.height
    simp [TypeTrace.push, TypeFrame.push, SlotStack.push, SlotStack.height, height]
  below := carries.below
  learned := carries.learned

/-- A slot is popped that the walk itself pushed. -/
theorem Carries.popAt (carries : trace.Carries (count + 1)) (type : Ty) :
    (trace.popAt type).Carries count := by
  have height : trace.frame.pushed.slots.size = count + 1 := carries.height
  have last : trace.frame.pushed.slots.size - 1 < trace.frame.pushed.slots.size := by omega
  have popped : trace.frame.pushed.pop? =
      some (trace.frame.pushed.slots[trace.frame.pushed.slots.size - 1],
        ⟨trace.frame.pushed.slots.pop⟩) := by
    rw [SlotStack.pop?, Array.back?_eq_getElem?, Array.getElem?_eq_getElem last]
    rfl
  unfold TypeTrace.popAt TypeTrace.pop TypeFrame.pop
  rw [popped]
  have rest : Carries count { trace with
      frame := { trace.frame with pushed := ⟨trace.frame.pushed.slots.pop⟩ } } := by
    refine ⟨?_, carries.below, carries.learned⟩
    simp [SlotStack.height, height]
  exact rest.note _ _

/-- What a walk carries says where its heights are recorded. -/
theorem Carries.recorded (carries : trace.Carries count) (heights : List (Nat × Int)) :
    Carries count { trace with heights } :=
  ⟨carries.height, carries.below, carries.learned⟩

/-- A walk that carries nothing at a return shows no parameter. -/
theorem Carries.finish? (carries : trace.Carries 0) :
    ∃ outcome, trace.finish? = some outcome ∧ outcome.slots = [] ∧ outcome.refinements = [] := by
  have level : trace.frame.height = 0 := by
    rw [TypeFrame.height, carries.height, carries.below]
    rfl
  unfold TypeTrace.finish?
  rw [level]
  refine ⟨_, rfl, rfl, ?_⟩
  rw [carries.learned]
  rfl

end Carries

/-- Calling a known action. -/
theorem stepAction_eq {context : TypingContext} {instruction : Instruction} {id count : Nat}
    {signature : ActionSignature} (operand : instruction.actionOperand? = some (id, count))
    (known : context.catalog.find? id = some signature) (trace : TypeTrace) :
    stepAction context instruction trace =
      (.next, trace.action (signature.params.take count) signature.returnType) := by
  rw [stepAction, operand, Option.bind_eq_bind, Option.bind_some]
  dsimp only
  rw [known]
  rfl

end TypeTrace

namespace Structured

/-- Slots that wait on the stack before an instruction. -/
def waiting (program : Program) (command : Nat) : Nat :=
  if program.opcode command = .action ∨ program.opcode command = .jumpZero then 1 else 0

theorem waiting_of_isStart {program : Program} {command : Nat} (starts : IsStart program command) :
    waiting program command = 0 := by
  rcases starts with opcode | opcode <;> simp [waiting, opcode]

/-- The actions that structured code calls. -/
structure Knows (catalog : ActionCatalog) : Prop where
  /-- Conditions are random numbers. -/
  random : catalog.find? 0 = some (.plain "Random" .int [.int])
  /-- Prints are actions without result. -/
  print : catalog.find? 1 = some (.plain "PrintString" .void [.string])

section Walk

variable {context : TypingContext} {body : List Structured} {closing : String} {command : Nat}
  {trace : TypeTrace}

/-- Wherever control goes from an instruction, the walk carries what is needed there. -/
def Carried (context : TypingContext) (command : Nat) (trace : TypeTrace) : Flow → Prop
  | .next => trace.Carries (waiting context.program (command + 1))
  | .goto destination =>
      destination < context.program.commandCount ∧
        trace.Carries (waiting context.program destination)
  | .branch jump => jump = command ∧ trace.Carries (waiting context.program (command + 1)) ∧
      ∀ target, Jumps.destination? context.program command = some target →
        target < context.program.commandCount ∧ trace.Carries (waiting context.program target)
  | .ret => trace.Carries 0
  | .saveBase | .blocked _ | .stuck => False

/-- An instruction finds what it needs on the stack and leaves what the next one needs. -/
theorem exists_execute (alone : context.program.IsAlone (routine body closing))
    (live : FlowTable.AllLive context.program context.table) (knows : Knows context.catalog)
    (inside : command < context.program.commandCount)
    (carries : trace.Carries (waiting context.program command)) :
    ∃ flow next, TypeTrace.execute context false command trace = .ok (flow, next) ∧
      Carried context command next flow := by
  have waits : ∀ {count : Nat}, waiting context.program command = count → trace.Carries count :=
    fun same => same ▸ carries
  have size : (codes body).length < context.program.commandCount := by
    rw [alone.commandCount, length_routine]
    omega
  have ahead : ∀ {next : TypeTrace}, IsStart context.program (command + 1) → next.Carries 0 →
      next.Carries (waiting context.program (command + 1)) := by
    intro next starts level
    rwa [waiting_of_isStart starts]
  unfold TypeTrace.execute
  rcases regular_or_last alone inside with regular | returns
  · cases regular with
    | literal here behind =>
        have level : trace.Carries 0 :=
          waits (by simp [waiting, Program.opcode, here, Instruction.constant])
        have next : waiting context.program (command + 1) = 1 := by simp [waiting, behind]
        rw [here]
        refine ⟨.next, _, rfl, ?_⟩
        rw [Carried, next]
        exact level.push _
    | value here behind =>
        have level : trace.Carries 1 :=
          waits (by simp [waiting, Program.opcode, here, Instruction.callAction])
        have next : waiting context.program (command + 1) = 1 := by simp [waiting, behind]
        have operand : (Instruction.callAction 0 1).actionOperand? = some (0, 1) := rfl
        have acted := TypeTrace.stepAction_eq operand knows.random trace
        rw [here]
        refine ⟨.next, _, congrArg Except.ok acted, ?_⟩
        rw [Carried, next]
        exact (level.popAt _).push _
    | effect here behind =>
        have level : trace.Carries 1 :=
          waits (by simp [waiting, Program.opcode, here, Instruction.callAction])
        have next : waiting context.program (command + 1) = 0 := by
          rcases behind with starts | returns
          · exact waiting_of_isStart starts
          · simp [waiting, returns]
        have operand : (Instruction.callAction 1 1).actionOperand? = some (1, 1) := rfl
        have acted := TypeTrace.stepAction_eq operand knows.print trace
        rw [here]
        refine ⟨.next, _, congrArg Except.ok acted, ?_⟩
        rw [Carried, next]
        exact level.popAt _
    | @test _ target here leads forward below begins behind =>
        have level : trace.Carries 1 :=
          waits (by simp [waiting, Program.opcode, here, Instruction.jump])
        have state : context.table.state command = .ok .normal := by
          rw [live.state command inside, skipsOperand_eq_false alone inside]
          rfl
        rw [here]
        refine ⟨.branch command, trace.popAt .int, ?_, rfl, ?_, ?_⟩
        · show (do
            if (← context.table.state command) = .shortCircuit then
              return (.next, trace.popAt .int)
            else
              return (.branch command, trace.popAt .int) : Except Fault (Flow × TypeTrace)) = _
          rw [state]
          rfl
        · exact ahead behind (level.popAt _)
        · intro other found
          obtain rfl : target = other := Option.some.inj (leads.symm.trans found)
          rw [waiting_of_isStart begins]
          exact ⟨by omega, level.popAt _⟩
    | @skip _ target _ here leads low_le below begins behind before tests passes =>
        have level : trace.Carries 0 :=
          waits (by simp [waiting, Program.opcode, here, Instruction.jump])
        rw [here]
        refine ⟨TypeTrace.jumpFlow context command (some target), trace, ?_, ?_⟩
        · show (do
            return (TypeTrace.jumpFlow context command (← context.table.destination command), trace) :
              Except Fault (Flow × TypeTrace)) = _
          rw [live.destination command inside, leads]
          rfl
        · unfold TypeTrace.jumpFlow
          dsimp only
          split
          · rw [Carried, waiting_of_isStart begins]
            exact ⟨by omega, level⟩
          · exact ahead behind level
  · have level : trace.Carries 0 := waits (by simp [waiting, returns])
    have here : (context.program.instruction command).opcode = .ret := returns
    dsimp only
    rw [here]
    exact ⟨.ret, trace, rfl, level⟩

theorem successor_carries (live : FlowTable.AllLive context.program context.table)
    (inside : command < context.program.commandCount) {flow : Flow}
    (carried : Carried context command trace flow) {queue changed : DecisionQueue} {target : Nat}
    (leads : context.successor command queue flow = .ok (some (some target), changed)) :
    target < context.program.commandCount ∧ trace.Carries (waiting context.program target) := by
  have onward : context.program.next? command = some target →
      trace.Carries (waiting context.program (command + 1)) →
        target < context.program.commandCount ∧
          trace.Carries (waiting context.program target) := by
    intro behind carries
    obtain ⟨rfl, bound, _⟩ := Program.next?_eq_some behind
    exact ⟨bound, carries⟩
  unfold TypingContext.successor at leads
  cases flow with
  | next =>
      have same := Except.ok.inj leads
      exact onward (Option.some.inj (congrArg Prod.fst same)) carried
  | goto destination =>
      have same := Except.ok.inj leads
      obtain rfl := Option.some.inj (Option.some.inj (congrArg Prod.fst same))
      exact carried
  | branch jump =>
      obtain ⟨rfl, ahead, aside⟩ := carried
      dsimp only at leads
      split at leads
      · rw [live.destination _ inside] at leads
        have same := Except.ok.inj leads
        exact aside target (Option.some.inj (congrArg Prod.fst same))
      · have same := Except.ok.inj leads
        exact onward (Option.some.inj (congrArg Prod.fst same)) ahead
  | ret | saveBase | blocked | stuck => cases leads

/-- A walk that completes shows no parameter and passes no argument to a subroutine. -/
theorem walkFrom_shows_none (alone : context.program.IsAlone (routine body closing))
    (live : FlowTable.AllLive context.program context.table) (knows : Knows context.catalog)
    {steps : Nat} {start : Option Nat} {queue walked : DecisionQueue} {outcome : WalkOutcome}
    (begins : ∀ command, start = some command → command < context.program.commandCount ∧
      trace.Carries (waiting context.program command))
    (walks : context.walkFrom false steps start trace queue = .ok (.complete outcome, walked)) :
    outcome.slots = [] ∧ outcome.refinements = [] := by
  induction steps generalizing start trace queue with
  | zero => cases start <;> cases walks
  | succ steps induction =>
      cases start with
      | none => cases walks
      | some command =>
          obtain ⟨inside, carries⟩ := begins command rfl
          obtain ⟨flow, next, executed, carried⟩ := exists_execute alone live knows inside
            (carries.recorded ((command, trace.frame.height) :: trace.heights))
          have stepped : trace.step context false command = .ok (flow, next) := executed
          rw [TypingContext.walkFrom, stepped] at walks
          simp only [bind, Except.bind] at walks
          cases moved : context.successor command queue flow with
          | error fault =>
              rw [moved] at walks
              cases walks
          | ok answer =>
              obtain ⟨target, changed⟩ := answer
              rw [moved] at walks
              rcases target with _ | _ | target
              · have ended : TypingContext.ending false next flow = .complete outcome :=
                  congrArg Prod.fst (Except.ok.inj walks)
                cases flow with
                | ret =>
                    obtain ⟨found, finished, shows⟩ := TypeTrace.Carries.finish? carried
                    have same : found = outcome :=
                      Option.some.inj (finished.symm.trans (TypingContext.finish?_of_ending ended))
                    exact same ▸ shows
                | next | goto | branch => cases ended
                | saveBase | blocked | stuck => exact absurd carried id
              · cases walks
              · dsimp only at walks
                split at walks
                · refine induction (fun other same => ?_) walks
                  obtain rfl := Option.some.inj same
                  exact successor_carries live inside carried moved
                · cases walks

/-- Walks begin where nothing waits. -/
theorem completes_shows_none (alone : context.program.IsAlone (routine body closing))
    (live : FlowTable.AllLive context.program context.table) (knows : Knows context.catalog)
    {outcome : WalkOutcome} (completes : context.Completes outcome) :
    outcome.slots = [] ∧ outcome.refinements = [] := by
  obtain ⟨queue, walked, walks⟩ := completes
  refine walkFrom_shows_none alone live knows (fun command found => ?_) walks
  have listed := List.mem_of_mem_head? found
  have inside := Program.lt_of_mem_body listed
  refine ⟨inside, ?_⟩
  have first : command = 0 := by
    have sub : context.sub = 0 := by
      by_contra other
      have outside : context.program.subroutineCount ≤ context.sub := by
        rw [alone.subroutineCount]
        omega
      rw [Program.body_eq_nil outside] at listed
      exact absurd listed List.not_mem_nil
    rw [sub, alone.body, List.range_eq_range', length_routine, List.range'_succ,
      List.head?_cons] at found
    exact (Option.some.inj found).symm
  have starts : IsStart context.program 0 := by
    have spans := spans_main alone
    have ends := isStart_end alone
    rw [← Nat.zero_add (codes body).length] at ends
    exact isStart_codes body spans.left ends
  rw [first, waiting_of_isStart starts]
  exact ⟨rfl, rfl, rfl⟩

end Walk

section Prototype

variable {program : Program} {body : List Structured} {closing : String} {calls : CallGraph}
  {catalog : ActionCatalog} {settings : Settings} {table : FlowTable}

/-- A prototype without parameters. -/
def HasNoSlots (proto : Prototype) : Prop :=
  proto.slots = []

theorem shows_none (alone : program.IsAlone (routine body closing)) (knows : Knows catalog)
    (live : FlowTable.AllLive program table) {outcome : WalkOutcome}
    (shows : (Analysis.inferenceInput program calls catalog settings).Shows table HasNoSlots
      outcome) : outcome.slots = [] ∧ outcome.refinements = [] := by
  obtain ⟨state, globals, sub, sound, completes⟩ := shows
  let context := (Analysis.inferenceInput program calls catalog settings).context state globals sub
  have alone_here : context.program.IsAlone (routine body closing) := alone
  exact completes_shows_none alone_here (live.of_sameFlow sound.flow) knows completes

theorem opcode_ne_of_alone (alone : program.IsAlone (routine body closing)) {command : Nat}
    (inside : command < program.commandCount) :
    program.opcode command ≠ .call ∧ program.opcode command ≠ .saveBase ∧
      program.opcode command ≠ .moveStack ∧ program.opcode command ≠ .storeState ∧
        program.opcode command ≠ .storeStateAll := by
  rcases regular_or_last alone inside with regular | returns
  · rcases regular.opcode with opcode | opcode | opcode | opcode <;> rw [opcode] <;> decide
  · rw [returns]
    decide

theorem poppedBefore_eq_zero (alone : program.IsAlone (routine body closing))
    (live : FlowTable.AllLive program table) {command : Nat}
    (inside : command < program.commandCount) :
    SlotGuess.poppedBefore program table command = .ok 0 := by
  unfold SlotGuess.poppedBefore
  split
  · rfl
  · rw [live.alive command inside]
    cases found : program.previous? command with
    | none => rfl
    | some previous =>
        have bound := (Program.previous?_lt found).trans inside
        have other := (opcode_ne_of_alone alone bound).2.2.1
        simp only [bind, Except.bind, Bool.false_eq_true, if_false, if_neg other]
        rfl

/-- No call pushes arguments and no pop stands before a return. -/
theorem guess_slots_eq_zero (alone : program.IsAlone (routine body closing))
    (live : FlowTable.AllLive program table) (protos : Array Prototype) (sub : Nat)
    {guess : SlotGuess}
    (guessed : SlotGuess.ofSub ⟨program, table, calls, catalog⟩ protos sub = .ok guess) :
    guess.slots = 0 := by
  let evidence : CallSites.Evidence := ⟨program, table, calls, catalog⟩
  have walked : ∀ caller ∈ calls.callers sub, ∀ estimates : SlotEstimates, estimates = [] →
      ∃ next, CallSites.walk evidence protos estimates caller = .ok next ∧ next = [] := by
    intro caller _ estimates none
    have stepped : ∀ command ∈ program.body caller,
        ∀ state : CallSites.Cursor × SlotEstimates, state.2 = [] → ∃ next,
          CallSites.step evidence protos state command = .ok next ∧ next.2 = [] := by
      intro command listed state none
      have inside := Program.lt_of_mem_body listed
      have no_call : (program.instruction command).opcode ≠ .call :=
        (opcode_ne_of_alone alone inside).1
      have alive : evidence.table.isDead command = .ok false := live.alive command inside
      refine ⟨(CallSites.stepOther catalog (program.instruction command) state.1, state.2), ?_, none⟩
      unfold CallSites.step
      rw [alive]
      exact if_neg no_call
    obtain ⟨last, folded, rest⟩ := foldlM_eq_ok stepped ({}, estimates) none
    exact ⟨last.2, by rw [CallSites.walk, folded]; rfl, rest⟩
  obtain ⟨estimates, estimated, none⟩ := foldlM_eq_ok walked [] rfl
  have popped : ∀ command ∈ program.body sub, ∀ most : Nat, most = 0 → ∃ next,
      (do return max most (← SlotGuess.poppedBefore program table command) : Except Fault Nat) =
        .ok next ∧ next = 0 := by
    rintro command listed most rfl
    rw [poppedBefore_eq_zero alone live (Program.lt_of_mem_body listed)]
    exact ⟨0, rfl, rfl⟩
  obtain ⟨epilogue, folded, level⟩ := foldlM_eq_ok popped 0 rfl
  unfold SlotGuess.ofSub CallSites.estimateFor at guessed
  rw [estimated] at guessed
  simp only [bind, Except.bind, pure, Except.pure] at folded guessed
  rw [folded] at guessed
  obtain rfl := Except.ok.inj guessed
  rw [none, level]
  rfl

/-- Inference finds no parameter. -/
theorem keeps_hasNoSlots (alone : program.IsAlone (routine body closing)) (knows : Knows catalog)
    (live : FlowTable.AllLive program table) :
    (Analysis.inferenceInput program calls catalog settings).Keeps table HasNoSlots where
  status := fun _ _ empty => empty
  decisions := fun _ _ empty => empty
  install := fun _ _ _ shows => (shows_none alone knows live shows).1
  merge := by
    intro proto outcome empty shows
    have none := (shows_none alone knows live shows).1
    unfold InferenceInput.mergeOutcome
    split
    · exact none
    · split
      · rw [none]
        unfold Prototype.refineReturn
        dsimp only
        split <;> exact empty
      · exact empty
  refine := by
    intro proto outcome refinement _ shows listed
    rw [(shows_none alone knows live shows).2] at listed
    exact absurd listed List.not_mem_nil
  guess := by
    intro proto state sub guess _ sound guessed
    have zero := guess_slots_eq_zero alone (live.of_sameFlow sound.flow) _ _ guessed
    show List.replicate guess.slots Ty.invalid = []
    rw [zero]
    rfl

/-- The analysis of structured code. -/
theorem exists_ofProgram_routine (alone : program.IsAlone (routine body closing))
    (knows : Knows catalog) (settings : Settings) :
    ∃ analysis, Analysis.ofProgram program catalog settings = .ok analysis ∧
      FlowTable.AllLive program analysis.table ∧ analysis.layout = ⟨0, none, none, none, 0⟩ ∧
        ∀ sub, HasNoSlots (analysis.inference.protos.getD sub {}) := by
  have counted : 0 < program.subroutineCount := by
    rw [alone.subroutineCount]
    exact Nat.one_pos
  exact Analysis.ofProgram_of_reachable catalog settings counted alone.increasing
    (allLand_routine alone)
    (fun command inside => ⟨(opcode_ne_of_alone alone inside).1,
      (opcode_ne_of_alone alone inside).2.1⟩)
    (fun command inside => isReachable_routine alone inside) (fun _ => rfl)
    fun table calls live => keeps_hasNoSlots alone knows live

end Prototype

end Structured
end NwScript
