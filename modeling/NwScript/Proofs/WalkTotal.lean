import NwScript.Proofs.FlowHeights
import NwScript.Typing.Paths

/-!
# Walks never fail

A walk reads the flow table only at instructions of the program, so it ends in a result whenever every
instruction has a row, and it records heights of instructions of the program alone.  The same holds for
the search through the paths of a subroutine.
-/

namespace NwScript

namespace Program

/-- Behind the last subroutine there are no instructions. -/
theorem body_eq_nil {program : Program} {sub : Nat} (outside : program.subroutineCount ≤ sub) :
    program.body sub = [] := by
  rw [subroutineCount_eq] at outside
  have absent : ∀ other, program.bodies.length < other → ∀ default,
      program.starts.getD other default = default := by
    intro other behind default
    have size : program.starts.size = program.bodies.length + 1 := by
      simp [program.starts_eq, length_startsFrom]
    simp [Array.getD_eq_getD_getElem?, Array.getElem?_eq_none (show program.starts.size ≤ other
      by omega)]
  simp only [Program.body, absent (sub + 1) (by omega), Nat.sub_self, List.range'_zero]

/-- The instructions of a subroutine are instructions of the program, whatever its number. -/
theorem lt_of_mem_body {program : Program} {sub command : Nat} (listed : command ∈ program.body sub) :
    command < program.commandCount := by
  by_cases inside : sub < program.subroutineCount
  · exact ((mem_body_iff inside).mp listed).1
  · rw [body_eq_nil (Nat.not_lt.mp inside)] at listed
    exact absurd listed List.not_mem_nil

end Program

namespace TypeTrace

variable (trace : TypeTrace)

/-- What a walk has recorded: the heights that it met and what callees learn. -/
def records : List (Nat × Int) × List Refinement :=
  (trace.heights, trace.refinements)

theorem records_foldl {α : Type} {step : TypeTrace → α → TypeTrace}
    (keeps : ∀ trace item, (step trace item).records = trace.records) (items : List α) :
    (items.foldl step trace).records = trace.records := by
  induction items generalizing trace with
  | nil => rfl
  | cons item items induction => rw [List.foldl_cons, induction, keeps]

@[simp]
theorem records_note (slot : TypeSlot) (type : Ty) :
    (trace.note slot type).records = trace.records := by
  unfold note
  split
  · split <;> rfl
  · rfl

@[simp]
theorem records_unify (left right : TypeSlot) :
    (trace.unify left right).records = trace.records := by
  unfold unify
  dsimp only
  split <;> split <;> simp

@[simp]
theorem records_push (slot : TypeSlot) : (trace.push slot).records = trace.records := rfl

@[simp]
theorem records_pushType (type : Ty) : (trace.pushType type).records = trace.records := rfl

@[simp]
theorem records_pop : trace.pop.2.records = trace.records := rfl

@[simp]
theorem records_popAt (type : Ty) : (trace.popAt type).records = trace.records := by
  simp [popAt]

@[simp]
theorem records_popValue (type : Ty) : (trace.popValue type).records = trace.records :=
  trace.records_foldl (fun trace type => trace.records_popAt type) _

@[simp]
theorem records_popSlots (count : Nat) : (trace.popSlots count).2.records = trace.records := by
  induction count generalizing trace with
  | zero => rfl
  | succ count induction => simp [popSlots, induction]

@[simp]
theorem records_copyTop (first : Int) (count : Nat) :
    (trace.copyTop first count).records = trace.records := rfl

@[simp]
theorem records_copyDownOne (source target : Int) :
    (trace.copyDownOne source target).records = trace.records := by
  unfold copyDownOne
  dsimp only
  split <;> exact records_unify _ _ _

@[simp]
theorem records_copyDown (first : Int) (count : Nat) :
    (trace.copyDown first count).records = trace.records :=
  trace.records_foldl (fun trace _ => trace.records_copyDownOne _ _) _

@[simp]
theorem records_copyTopBase (globals : Array Ty) (offset : Int) (count : Nat) :
    (trace.copyTopBase globals offset count).records = trace.records := by
  refine trace.records_foldl (fun trace step => ?_) _
  split <;> rfl

@[simp]
theorem records_copyDownBase (globals : Array Ty) (offset : Int) (count : Nat) :
    (trace.copyDownBase globals offset count).records = trace.records := by
  refine trace.records_foldl (fun trace step => ?_) _
  split <;> simp

@[simp]
theorem records_action (params : List Ty) (result : Ty) :
    (trace.action params result).records = trace.records :=
  trace.records_foldl (fun trace type => trace.records_popValue type) _

@[simp]
theorem records_compareStructs (width : Nat) :
    (trace.compareStructs width).records = trace.records := by
  unfold compareStructs
  dsimp only
  rw [records_push, records_foldl]
  · exact trace.records_popSlots width
  · intro trace slot
    simp

theorem records_binary {instruction : Instruction} {next : TypeTrace}
    (done : trace.binary instruction = some next) : next.records = trace.records := by
  unfold binary at done
  split at done <;> obtain ⟨operands, _, rfl⟩ := Option.map_eq_some_iff.mp done <;> simp

theorem records_proceed {next : Option TypeTrace}
    (keeps : ∀ changed, next = some changed → changed.records = trace.records) :
    (trace.proceed next).2.records = trace.records := by
  cases next with
  | none => rfl
  | some changed => exact keeps changed rfl

theorem heights_passArgument (callee : Nat) (param : Ty × Nat) :
    (passArgument callee trace param).heights = trace.heights := by
  unfold passArgument
  dsimp only
  split
  · exact congrArg Prod.fst (records_note _ _ _)
  · split
    · split <;> rfl
    · rfl

/-- A call records no height. -/
theorem heights_call (callee : Nat) (proto : Prototype) :
    (trace.call callee proto).heights = trace.heights := by
  have passed : ∀ (params : List (Ty × Nat)) (trace : TypeTrace),
      (params.foldl (passArgument callee) trace).heights = trace.heights := by
    intro params
    induction params with
    | nil => exact fun _ => rfl
    | cons param params induction =>
        intro trace
        rw [List.foldl_cons, induction, heights_passArgument]
  unfold call receiveResult
  dsimp only
  split <;> exact passed _ _

/-- Executing an instruction records nothing by itself, unless it is a call of a known prototype. -/
theorem records_execute {context : TypingContext} {globalsOnly : Bool} {command : Nat} {flow : Flow}
    {next : TypeTrace} (executed : execute context globalsOnly command trace = .ok (flow, next)) :
    next.records = trace.records ∨ ∃ callee proto, context.calls.target? command = some callee ∧
      context.protos[callee]? = some proto ∧ next = trace.call callee proto := by
  have proceeded : ∀ {made : Option TypeTrace},
      (∀ changed, made = some changed → changed.records = trace.records) →
      (.ok (trace.proceed made) : Except Fault (Flow × TypeTrace)) = .ok (flow, next) →
      next.records = trace.records := by
    intro made keeps same
    have made_next := congrArg (·.2.records) (Except.ok.inj same)
    exact made_next.symm.trans (trace.records_proceed keeps)
  have mapped : ∀ {α : Type} {found : Option α} {change : α → TypeTrace},
      (∀ operand, (change operand).records = trace.records) →
      ∀ changed, found.map change = some changed → changed.records = trace.records := by
    intro α found change keeps changed same
    obtain ⟨operand, _, rfl⟩ := Option.map_eq_some_iff.mp same
    exact keeps operand
  unfold execute at executed
  dsimp only at executed
  split at executed
  case h_9 =>
    unfold stepCall at executed
    split at executed
    · cases executed
      exact .inl rfl
    · rename_i callee called
      split at executed
      · cases executed
        exact .inl rfl
      · rename_i proto known
        split at executed
        · cases executed
          exact .inl rfl
        · cases executed
          exact .inr ⟨callee, proto, called, known, rfl⟩
  all_goals left
  case h_3 | h_4 | h_5 => exact proceeded (mapped (by simp)) executed
  case h_7 =>
    refine proceeded (mapped ?_) executed
    exact fun _ => rfl
  case h_6 | h_15 | h_16 => split at executed <;> cases executed <;> simp
  case h_8 =>
    refine proceeded (fun changed made => ?_) executed
    obtain ⟨_, _, made⟩ := Option.bind_eq_some_iff.mp made
    obtain ⟨_, _, made⟩ := Option.bind_eq_some_iff.mp made
    obtain rfl := Option.some.inj made
    exact trace.records_action _ _
  case h_10 =>
    cases found : context.table.destination command with
    | error fault =>
        rw [found] at executed
        cases executed
    | ok destination =>
        rw [found] at executed
        cases executed
        rfl
  case h_11 | h_12 =>
    cases found : context.table.state command with
    | error fault =>
        rw [found] at executed
        cases executed
    | ok state =>
        simp only [found, bind, Except.bind] at executed
        split at executed <;> cases executed <;> simp
  case h_14 =>
    split at executed
    · refine proceeded (mapped ?_) executed
      exact fun _ => rfl
    · cases executed
      rfl
  case h_21 =>
    split at executed
    · exact proceeded (fun changed made => trace.records_binary made) executed
    · cases executed
      rfl
  all_goals
    cases executed
    simp

theorem heights_execute {context : TypingContext} {globalsOnly : Bool} {command : Nat} {flow : Flow}
    {next : TypeTrace} (executed : execute context globalsOnly command trace = .ok (flow, next)) :
    next.heights = trace.heights := by
  rcases trace.records_execute executed with kept | ⟨callee, proto, -, -, rfl⟩
  · exact congrArg Prod.fst kept
  · exact trace.heights_call callee proto

/-- A jump stays in the program. -/
def IsInside (program : Program) (command : Nat) : Flow → Prop
  | .goto destination => destination < program.commandCount
  | .branch jump => jump = command
  | _ => True

theorem isInside_proceed {program : Program} {command : Nat} (next : Option TypeTrace) :
    IsInside program command (trace.proceed next).1 := by
  cases next <;> exact True.intro

/-- Executing an instruction of the program gives a result and stays in the program. -/
theorem execute_eq_ok {context : TypingContext} (known : context.table.IsKnown context.program)
    (globalsOnly : Bool) {command : Nat} (inside : command < context.program.commandCount) :
    ∃ flow next, execute context globalsOnly command trace = .ok (flow, next) ∧
      IsInside context.program command flow := by
  obtain ⟨destination, found, bound⟩ := known.destination_eq inside
  obtain ⟨state, marked⟩ := known.state_eq inside
  unfold execute
  dsimp only
  split
  case h_3 | h_4 | h_5 | h_7 | h_8 => exact ⟨_, _, rfl, trace.isInside_proceed _⟩
  case h_6 | h_15 | h_16 => split <;> exact ⟨_, _, rfl, True.intro⟩
  case h_9 =>
    refine ⟨_, _, rfl, ?_⟩
    split
    · exact True.intro
    · split
      · exact True.intro
      · split <;> exact True.intro
  case h_10 =>
    rw [found]
    refine ⟨_, _, rfl, ?_⟩
    unfold jumpFlow
    split
    · split
      · exact bound _ rfl
      · exact True.intro
    · exact True.intro
  case h_11 | h_12 =>
    rw [marked]
    simp only [bind, Except.bind]
    split <;> exact ⟨_, _, rfl, by first | exact True.intro | rfl⟩
  case h_14 =>
    split
    · exact ⟨_, _, rfl, trace.isInside_proceed _⟩
    · exact ⟨_, _, rfl, True.intro⟩
  case h_17 => exact ⟨_, _, rfl, by split <;> exact True.intro⟩
  case h_21 =>
    split
    · exact ⟨_, _, rfl, trace.isInside_proceed _⟩
    · exact ⟨_, _, rfl, True.intro⟩
  all_goals exact ⟨_, _, rfl, True.intro⟩

end TypeTrace

namespace TypingContext

variable {context : TypingContext}

/-- The heights that a result brings belong to instructions of the program. -/
def HeightsInside (program : Program) (outcome : WalkOutcome) : Prop :=
  ∀ entry ∈ outcome.heights, entry.1 < program.commandCount

/-- The outcome of a walk lists what was recorded from the beginning on. -/
theorem records_of_finish? {trace : TypeTrace} {outcome : WalkOutcome}
    (done : trace.finish? = some outcome) :
    outcome.heights = trace.heights.reverse ∧ outcome.refinements = trace.refinements.reverse := by
  unfold TypeTrace.finish? at done
  split at done
  · cases done
  · cases done
    exact ⟨rfl, rfl⟩

theorem finish?_of_ending {globalsOnly : Bool} {trace : TypeTrace} {flow : Flow}
    {outcome : WalkOutcome} (ended : ending globalsOnly trace flow = .complete outcome) :
    trace.finish? = some outcome := by
  unfold ending at ended
  split at ended
  · split at ended
    · cases ended
    · split at ended
      · cases ended
        assumption
      · cases ended
  all_goals cases ended

/-- Where control goes is an instruction of the program. -/
theorem successor_eq_ok (known : context.table.IsKnown context.program) {command : Nat}
    (inside : command < context.program.commandCount) (queue : DecisionQueue) {flow : Flow}
    (stays : TypeTrace.IsInside context.program command flow) :
    ∃ next changed, context.successor command queue flow = .ok (next, changed) ∧
      ∀ target, next = some (some target) → target < context.program.commandCount := by
  have ahead : ∀ target, some (context.program.next? command) = some (some target) →
      target < context.program.commandCount := by
    intro target found
    exact (Program.next?_eq_some (Option.some.inj found)).2.1
  unfold successor
  split
  · exact ⟨_, _, rfl, ahead⟩
  · refine ⟨_, _, rfl, fun target same => ?_⟩
    cases same
    exact stays
  · obtain rfl := stays
    obtain ⟨destination, found, bound⟩ := known.destination_eq inside
    dsimp only
    split
    · rw [found]
      refine ⟨_, _, rfl, fun target same => bound target ?_⟩
      exact Option.some.inj same
    · exact ⟨_, _, rfl, ahead⟩
  · exact ⟨_, _, rfl, by rintro _ ⟨⟩⟩

/-- A walk ends in a result. -/
theorem walkFrom_eq_ok (known : context.table.IsKnown context.program) (globalsOnly : Bool)
    {steps : Nat} {command : Option Nat} {trace : TypeTrace} {queue : DecisionQueue}
    (inside : ∀ start, command = some start → start < context.program.commandCount)
    (recorded : ∀ entry ∈ trace.heights, entry.1 < context.program.commandCount) :
    ∃ result walked, context.walkFrom globalsOnly steps command trace queue = .ok (result, walked) ∧
      ∀ outcome, result = .complete outcome → HeightsInside context.program outcome := by
  induction steps generalizing command trace queue with
  | zero =>
      cases command <;> exact ⟨_, _, rfl, by rintro _ ⟨⟩⟩
  | succ steps induction =>
      cases command with
      | none => exact ⟨_, _, rfl, by rintro _ ⟨⟩⟩
      | some command =>
          have here := inside command rfl
          obtain ⟨flow, next, stepped, stays⟩ :=
            TypeTrace.execute_eq_ok
              { trace with heights := (command, trace.frame.height) :: trace.heights } known
              globalsOnly here
          have kept := TypeTrace.heights_execute _ stepped
          obtain ⟨target, changed, moved, bound⟩ := successor_eq_ok known here queue stays
          have all : ∀ entry ∈ next.heights, entry.1 < context.program.commandCount := by
            intro entry listed
            rw [kept] at listed
            rcases List.mem_cons.mp listed with rfl | before
            · exact here
            · exact recorded entry before
          simp only [walkFrom, TypeTrace.step, stepped, bind, Except.bind, moved]
          rcases target with _ | _ | target
          · refine ⟨_, _, rfl, fun outcome same entry listed => all entry ?_⟩
            have done := finish?_of_ending same
            rw [(records_of_finish? done).1] at listed
            exact List.mem_reverse.mp listed
          · exact ⟨_, _, rfl, by rintro _ ⟨⟩⟩
          · dsimp only
            split
            · refine induction (fun start same => ?_) all
              cases same
              exact bound _ rfl
            · exact ⟨_, _, rfl, by rintro _ ⟨⟩⟩

theorem walk_eq_ok (known : context.table.IsKnown context.program) (globalsOnly : Bool)
    (queue : DecisionQueue) :
    ∃ result walked, context.walk globalsOnly queue = .ok (result, walked) ∧
      ∀ outcome, result = .complete outcome → HeightsInside context.program outcome := by
  refine walkFrom_eq_ok known globalsOnly (fun start found => ?_) (by simp)
  exact Program.lt_of_mem_body (List.mem_of_mem_head? found)

/-- A walk fails, or it ends at some instruction of the subroutine.  Before that instruction everything
holds that holds at the start and that instructions of the subroutine keep. -/
theorem exists_ending_of_walkFrom {holds : TypeTrace → Prop} {globalsOnly : Bool}
    (keeps : ∀ command trace flow next, context.program.owner command = context.sub → holds trace →
      trace.step context globalsOnly command = .ok (flow, next) → holds next)
    {steps : Nat} {command : Option Nat} {trace : TypeTrace} {queue walked : DecisionQueue}
    {result : WalkResult} (owned : ∀ start, command = some start →
      context.program.owner start = context.sub) (begins : holds trace)
    (went : context.walkFrom globalsOnly steps command trace queue = .ok (result, walked)) :
    result = .failed ∨ ∃ command trace flow next, context.program.owner command = context.sub ∧
      holds trace ∧ trace.step context globalsOnly command = .ok (flow, next) ∧
      result = ending globalsOnly next flow := by
  induction steps generalizing command trace queue with
  | zero =>
      cases command <;> cases went <;> exact .inl rfl
  | succ steps induction =>
      cases command with
      | none =>
          cases went
          exact .inl rfl
      | some command =>
          have here := owned command rfl
          unfold walkFrom at went
          cases stepped : trace.step context globalsOnly command with
          | error fault =>
              rw [stepped] at went
              cases went
          | ok pair =>
              obtain ⟨flow, next⟩ := pair
              simp only [stepped, bind, Except.bind] at went
              cases going : context.successor command queue flow with
              | error fault =>
                  rw [going] at went
                  cases went
              | ok answer =>
                  obtain ⟨target, changed⟩ := answer
                  rw [going] at went
                  dsimp only at went
                  rcases target with _ | _ | target
                  · cases went
                    exact .inr ⟨command, trace, flow, next, here, begins, stepped, rfl⟩
                  · cases went
                    exact .inl rfl
                  · dsimp only at went
                    split at went
                    · rename_i inside
                      refine induction (fun start same => ?_)
                        (keeps command trace flow next here begins stepped) went
                      cases same
                      exact inside
                    · cases went
                      exact .inl rfl

/-- So does a walk from the entry. -/
theorem exists_ending_of_walk {holds : TypeTrace → Prop} {globalsOnly : Bool}
    (keeps : ∀ command trace flow next, context.program.owner command = context.sub → holds trace →
      trace.step context globalsOnly command = .ok (flow, next) → holds next)
    {queue walked : DecisionQueue} {result : WalkResult} (begins : holds {})
    (went : context.walk globalsOnly queue = .ok (result, walked)) :
    result = .failed ∨ ∃ command trace flow next, context.program.owner command = context.sub ∧
      holds trace ∧ trace.step context globalsOnly command = .ok (flow, next) ∧
      result = ending globalsOnly next flow := by
  refine exists_ending_of_walkFrom keeps (fun start first => ?_) begins went
  have listed : start ∈ context.program.body context.sub := List.mem_of_head? first
  by_cases inside : context.sub < context.program.subroutineCount
  · exact ((Program.mem_body_iff inside).mp listed).2
  · rw [Program.body_eq_nil (Nat.not_lt.mp inside)] at listed
    cases listed

/-- A prototype that some walk through the subroutine completes. -/
def Completes (context : TypingContext) (outcome : WalkOutcome) : Prop :=
  ∃ queue walked, context.walk false queue = .ok (.complete outcome, walked)

/-- The search for a path ends, and what it finds some walk completes. -/
theorem exploreFrom_eq_ok (known : context.table.IsKnown context.program) (budget : Option Nat)
    (cap attempts queued : Nat) (waiting : Option Nat) (queue : DecisionQueue) :
    ∃ exploration, context.exploreFrom budget cap attempts queued waiting queue = .ok exploration ∧
      ∀ outcome, exploration.result = .found outcome → context.Completes outcome := by
  obtain ⟨left, bound⟩ : ∃ left, left = cap - queued := ⟨_, rfl⟩
  induction left using Nat.strong_induction_on generalizing attempts queued waiting queue with
  | _ left induction =>
      obtain ⟨result, walked, went, _⟩ := walk_eq_ok known false queue.rewind
      rw [exploreFrom]
      simp only [went, bind, Except.bind]
      split
      · exact ⟨_, rfl, by rintro _ ⟨⟩⟩
      · rename_i within
        split
        · refine ⟨_, rfl, ?_⟩
          rintro _ ⟨⟩
          exact ⟨_, _, went⟩
        · split
          · exact ⟨_, rfl, by rintro _ ⟨⟩⟩
          · split
            · have less : cap - (queued + max 1 (walked.length - queue.length)) < left := by omega
              exact induction _ less _ _ _ _ rfl
            · exact ⟨_, rfl, by rintro _ ⟨⟩⟩

theorem heightsInside_of_completes (known : context.table.IsKnown context.program)
    {outcome : WalkOutcome} (completes : context.Completes outcome) :
    HeightsInside context.program outcome := by
  obtain ⟨queue, _, went⟩ := completes
  obtain ⟨result, walked, again, inside⟩ := walk_eq_ok known false queue
  rw [went] at again
  cases again
  exact inside outcome rfl

/-- The search for the globals ends. -/
theorem globalTypes_eq_ok (known : context.table.IsKnown context.program) (cap : Nat) :
    ∃ types, context.globalTypes cap = .ok types := by
  have search : ∀ walks queue, ∃ types, context.findGlobals cap walks queue = .ok types := by
    intro walks
    induction walks with
    | zero => exact fun queue => ⟨_, rfl⟩
    | succ walks induction =>
        intro queue
        obtain ⟨result, walked, went, _⟩ := walk_eq_ok known true queue.rewind
        simp only [findGlobals, went, bind, Except.bind]
        split
        · exact ⟨_, rfl⟩
        · exact ⟨_, rfl⟩
        · split
          · exact ⟨_, rfl⟩
          · split
            · exact induction _
            · exact ⟨_, rfl⟩
  exact search _ _

end TypingContext
end NwScript
