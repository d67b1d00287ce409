import NwScript.Proofs.CallingCode
import NwScript.Proofs.PathSearch
import NwScript.Proofs.StructuredTyping

/-!
# Walks through guarded calls

A walk through code that prints and calls holds nothing between two passages, so it ends at the return or at
a call whose callee has no prototype.  If a test guards that call, the next path skips it.  Each path thus
gets past one more call than the one before, and the first path that completes comes behind no more others
than there are tests.
-/

namespace NwScript

namespace TypeTrace

/-- A walk that holds nothing. -/
def resting (heights : List (Nat × Int)) : TypeTrace :=
  { heights }

/-- A walk that holds a value. -/
def holding (type : Ty) (heights : List (Nat × Int)) : TypeTrace :=
  { frame := { pushed := ⟨#[.known type]⟩ }, heights }

section Steps

variable {context : TypingContext} {command : Nat} {heights : List (Nat × Int)}

theorem step_literal {value : Constant} (here : context.program.instruction command = .constant value) :
    (resting heights).step context false command =
      .ok (.next, holding (.simple value.typeCode) ((command, 0) :: heights)) := by
  unfold step execute
  dsimp only
  rw [here]
  rfl

theorem step_value (knows : Structured.Knows context.catalog)
    (here : context.program.instruction command = .callAction 0 1) :
    (holding .int heights).step context false command =
      .ok (.next, holding .int ((command, 1) :: heights)) := by
  have operand : (Instruction.callAction 0 1).actionOperand? = some (0, 1) := rfl
  unfold step execute
  dsimp only
  rw [here]
  exact congrArg Except.ok ((stepAction_eq operand knows.random _).trans rfl)

theorem step_print (knows : Structured.Knows context.catalog)
    (here : context.program.instruction command = .callAction 1 1) :
    (holding .string heights).step context false command =
      .ok (.next, resting ((command, 1) :: heights)) := by
  have operand : (Instruction.callAction 1 1).actionOperand? = some (1, 1) := rfl
  unfold step execute
  dsimp only
  rw [here]
  exact congrArg Except.ok ((stepAction_eq operand knows.print _).trans rfl)

theorem step_test {distance : Int}
    (here : context.program.instruction command = .jump .jumpZero distance)
    (state : context.table.state command = .ok .normal) :
    (holding .int heights).step context false command =
      .ok (.branch command, resting ((command, 1) :: heights)) := by
  unfold step execute
  dsimp only
  rw [here]
  dsimp only [Instruction.jump]
  rw [state]
  rfl

/-- A call of a subroutine without parameters and result passes or waits. -/
theorem step_call {distance : Int} {callee : Nat} {proto : Prototype}
    (here : context.program.instruction command = .jump .call distance)
    (target : context.calls.target? command = some callee)
    (known : context.protos[callee]? = some proto) (slots : proto.slots = [])
    (result : proto.returnType = .void) :
    (resting heights).step context false command = .ok
      (if callee = context.sub ∨ !proto.isPrototyped then .blocked callee else .next,
        resting ((command, 0) :: heights)) := by
  unfold step execute
  dsimp only
  rw [here]
  dsimp only [Instruction.jump]
  rw [stepCall, target]
  dsimp only
  rw [known]
  dsimp only
  split
  · rfl
  · rw [call, slots, result]
    rfl

theorem step_return (here : context.program.instruction command = .simple .ret .void) :
    (resting heights).step context false command =
      .ok (.ret, resting ((command, 0) :: heights)) := by
  unfold step execute
  dsimp only
  rw [here]
  rfl

end Steps

end TypeTrace

/-- A walk shows no parameters, no result, and nothing about callees. -/
structure WalkOutcome.IsPlain (outcome : WalkOutcome) : Prop where
  /-- No parameter slots. -/
  slots : outcome.slots = []
  /-- No result. -/
  returnType : outcome.returnType = .void
  /-- No arguments. -/
  refinements : outcome.refinements = []

theorem TypeTrace.isPlain_resting (heights : List (Nat × Int)) :
    ∃ outcome, (resting heights).finish? = some outcome ∧ outcome.IsPlain :=
  ⟨⟨[], [], .void, none, [], heights.reverse⟩, rfl, rfl, rfl, rfl⟩

/-! ### Trees whose first completing path comes early -/

namespace DecisionTree

variable {command count : Nat} {tree falls takes : DecisionTree (Except Fault WalkResult)}

/-- At most `count` paths wait, with at most as many decisions each, and the next one completes. -/
def Clears (count : Nat) (tree : DecisionTree (Except Fault WalkResult)) : Prop :=
  ∃ stops path outcome later,
    tree.paths = stops ++ (path, .ok (.complete outcome)) :: later ∧ outcome.IsPlain ∧
      stops.length ≤ count ∧ path.length ≤ count ∧
        ∀ stop ∈ stops, stop.1.length ≤ count ∧ ∃ callee, stop.2 = .ok (.blocked callee)

theorem clears_leaf {outcome : WalkOutcome} (plain : outcome.IsPlain) :
    (leaf (.ok (.complete outcome))).Clears 0 :=
  ⟨[], [], outcome, [], rfl, plain, Nat.le_refl 0, Nat.le_refl 0,
    fun _ absent => absurd absent List.not_mem_nil⟩

/-- A test whose call passes. -/
theorem Clears.of_falls (clears : falls.Clears count) (command : Nat)
    (takes : DecisionTree (Except Fault WalkResult)) :
    (node command falls takes).Clears (count + 1) := by
  obtain ⟨stops, path, outcome, later, listed, plain, few, short, waits⟩ := clears
  refine ⟨stops.map (under ⟨command, false⟩), ⟨command, false⟩ :: path, outcome,
    later.map (under ⟨command, false⟩) ++ takes.paths.map (under ⟨command, true⟩), ?_, plain, ?_, ?_, ?_⟩
  · rw [paths, listed, List.map_append, List.map_cons, List.append_assoc, List.cons_append]
    rfl
  · rw [List.length_map]
    omega
  · rw [List.length_cons]
    omega
  · intro stop member
    obtain ⟨before, inside, rfl⟩ := List.mem_map.mp member
    obtain ⟨bound, waiting⟩ := waits before inside
    exact ⟨Nat.succ_le_succ bound, waiting⟩

/-- A test whose call waits. -/
theorem Clears.of_takes (clears : takes.Clears count) (command callee : Nat) :
    (node command (leaf (.ok (.blocked callee))) takes).Clears (count + 1) := by
  obtain ⟨stops, path, outcome, later, listed, plain, few, short, waits⟩ := clears
  refine ⟨([⟨command, false⟩], .ok (.blocked callee)) :: stops.map (under ⟨command, true⟩),
    ⟨command, true⟩ :: path, outcome, later.map (under ⟨command, true⟩), ?_, plain, ?_, ?_, ?_⟩
  · rw [paths, listed, List.map_append, List.map_cons]
    rfl
  · rw [List.length_cons, List.length_map]
    omega
  · rw [List.length_cons]
    omega
  · intro stop member
    rcases List.mem_cons.mp member with rfl | member
    · exact ⟨Nat.succ_le_succ (Nat.zero_le count), callee, rfl⟩
    · obtain ⟨before, inside, rfl⟩ := List.mem_map.mp member
      obtain ⟨bound, waiting⟩ := waits before inside
      exact ⟨Nat.succ_le_succ bound, waiting⟩

end DecisionTree

namespace TypingContext

open DecisionTree (Clears)
open Passage (startOf lengths)
open TypeTrace (resting)

variable {context : TypingContext}

section WalksFrom

variable {globalsOnly : Bool} {steps command next target : Nat} {trace after : TypeTrace}

theorem walksFrom_next (stepped : trace.step context globalsOnly command = .ok (.next, after))
    (behind : context.program.next? command = some next)
    (owned : context.program.owner next = context.sub) :
    context.walksFrom globalsOnly (steps + 1) (some command) trace =
      context.walksFrom globalsOnly steps (some next) after := by
  rw [walksFrom, stepped]
  dsimp only
  rw [behind, onward, if_pos owned]

theorem walksFrom_branch (stepped : trace.step context globalsOnly command = .ok (.branch command, after))
    (behind : context.program.next? command = some next)
    (leads : context.table.destination command = .ok (some target))
    (owned : context.program.owner next = context.sub)
    (reached : context.program.owner target = context.sub) :
    context.walksFrom globalsOnly (steps + 1) (some command) trace =
      .node command (context.walksFrom globalsOnly steps (some next) after)
        (context.walksFrom globalsOnly steps (some target) after) := by
  rw [walksFrom, stepped]
  dsimp only
  rw [behind, leads, onward, onward, if_pos owned, if_pos reached]

theorem walksFrom_blocked {callee : Nat}
    (stepped : trace.step context globalsOnly command = .ok (.blocked callee, after)) :
    context.walksFrom globalsOnly (steps + 1) (some command) trace =
      .leaf (.ok (.blocked callee)) := by
  rw [walksFrom, stepped]
  rfl

end WalksFrom

/-- Code that prints and calls is walked, and no prototype that is known has parameters or a result. -/
structure Calling (context : TypingContext) (routines : List (List Passage)) : Prop where
  /-- The code. -/
  made : context.program.IsMadeOf routines
  /-- Nothing is dead. -/
  live : FlowTable.AllLive context.program context.table
  /-- Calls are known where they lead. -/
  targets : ∀ command < context.program.commandCount, ∀ callee < routines.length,
    context.program.opcode command = .call →
      Jumps.destination? context.program command = some (context.program.entry callee) →
        context.calls.target? command = some callee
  /-- The actions are known. -/
  knows : Structured.Knows context.catalog
  /-- There is a prototype for each subroutine. -/
  protos : ∀ callee < routines.length, ∃ proto, context.protos[callee]? = some proto ∧
    proto.slots = [] ∧ proto.returnType = .void

/-- A call of a subroutine passes. -/
def Passes (context : TypingContext) (callee : Nat) : Prop :=
  callee ≠ context.sub ∧ ∃ proto, context.protos[callee]? = some proto ∧ proto.status = .done

section Calling

variable {routines : List (List Passage)} (calling : context.Calling routines)
  {before rest : List Passage} {steps : Nat} {heights : List (Nat × Int)}

include calling

/-- A call either waits or passes. -/
theorem Calling.step_call {command callee : Nat} {distance : Int}
    (inside : command < context.program.commandCount) (bound : callee < routines.length)
    (here : context.program.instruction command = .jump .call distance)
    (leads : Jumps.destination? context.program command = some (context.program.entry callee)) :
    ((resting heights).step context false command =
        .ok (.blocked callee, resting ((command, 0) :: heights)) ∧ ¬context.Passes callee) ∨
      (resting heights).step context false command =
        .ok (.next, resting ((command, 0) :: heights)) := by
  obtain ⟨proto, known, slots, result⟩ := calling.protos callee bound
  have target := calling.targets command inside callee bound
    (congrArg Instruction.opcode here) leads
  rw [TypeTrace.step_call here target known slots result]
  split
  · rename_i waits
    refine .inl ⟨rfl, ?_⟩
    rintro ⟨apart, other, same, done⟩
    obtain rfl := Option.some.inj (known.symm.trans same)
    rcases waits with own | unknown
    · exact apart own
    · simp [Prototype.isPrototyped, done] at unknown
  · exact .inr rfl

/-- A print is passed. -/
theorem Calling.walksFrom_print {first position : Nat} {text : String}
    (stretch : Program.Stretch context.program context.sub first position
      (Passage.code (startOf routines) position (.print text))) :
    ∃ after, context.walksFrom false (steps + 2) (some first) (resting heights) =
      context.walksFrom false steps (some (first + 2)) (resting after) := by
  have literal : context.program.instruction first = .constant (.string text) := stretch.head.1
  have action : context.program.instruction (first + 1) = .callAction 1 1 := stretch.instruction rfl
  have behind : ∀ place < 2, context.program.next? (first + place) = some (first + place + 1) :=
    fun _ inside => stretch.next? inside
  have owned : ∀ place ≤ 2, context.program.owner (first + place) = context.sub :=
    fun _ inside => stretch.owner inside
  exact ⟨_, calc
    _ = _ := walksFrom_next (TypeTrace.step_literal literal) (behind 0 (by omega)) (owned 1 (by omega))
    _ = _ := walksFrom_next (TypeTrace.step_print calling.knows action) (behind 1 (by omega))
      (owned 2 (by omega))⟩

/-- A call that passes is passed. -/
theorem Calling.walksFrom_call {first position callee : Nat}
    (stretch : Program.Stretch context.program context.sub first position
      (Passage.code (startOf routines) position (.call callee)))
    (bound : callee < routines.length) (passes : context.Passes callee) :
    ∃ after, context.walksFrom false (steps + 1) (some first) (resting heights) =
      context.walksFrom false steps (some (first + 1)) (resting after) := by
  have inside := stretch.inside
  have jump : context.program.instruction first = .jump .call (startOf routines callee - position) :=
    stretch.head.1
  have leads := calling.made.destination?_call bound jump stretch.head.2
  have behind : context.program.next? first = some (first + 1) :=
    stretch.next? (show 0 < 1 by omega)
  have owned : context.program.owner (first + 1) = context.sub := stretch.owner (show 1 ≤ 1 by omega)
  rcases calling.step_call (by omega) bound jump leads with ⟨-, waits⟩ | passed
  · exact absurd passes waits
  · exact ⟨_, walksFrom_next passed behind owned⟩

/-- A guarded call is skipped, or it waits or is passed. -/
theorem Calling.walksFrom_guarded {first position callee : Nat}
    (stretch : Program.Stretch context.program context.sub first position
      (Passage.code (startOf routines) position (.guarded callee)))
    (bound : callee < routines.length) :
    ∃ falls after, context.walksFrom false (steps + 4) (some first) (resting heights) =
        .node (first + 2) falls (context.walksFrom false (steps + 1) (some (first + 4)) (resting after)) ∧
      (falls = .leaf (.ok (.blocked callee)) ∨
        ∃ after, falls = context.walksFrom false steps (some (first + 4)) (resting after)) := by
  have inside : first + 4 < context.program.commandCount := stretch.inside
  have literal : context.program.instruction first = .constant (.int 2) := stretch.head.1
  have value : context.program.instruction (first + 1) = .callAction 0 1 := stretch.instruction rfl
  have test : context.program.instruction (first + 2) = .jump .jumpZero 12 := stretch.instruction rfl
  have jump : context.program.instruction (first + 3) =
      .jump .call (startOf routines callee - (position + 17 : Nat)) := stretch.instruction rfl
  have placed : context.program.position (first + 3) = position + 17 :=
    stretch.position (show 3 ≤ 4 by omega)
  have behind : ∀ place < 4, context.program.next? (first + place) = some (first + place + 1) :=
    fun _ inside => stretch.next? inside
  have owned : ∀ place ≤ 4, context.program.owner (first + place) = context.sub :=
    fun _ inside => stretch.owner inside
  have state : context.table.state (first + 2) = .ok .normal := by
    rw [calling.live.state _ (by omega), calling.made.skipsOperand_eq_false (by omega)]
    rfl
  have skips : context.table.destination (first + 2) = .ok (some (first + 4)) := by
    rw [calling.live.destination _ (by omega), calling.made.destination?_test stretch]
  have leads := calling.made.destination?_call bound jump placed
  refine ⟨_, _, calc
    _ = _ := walksFrom_next (TypeTrace.step_literal literal) (behind 0 (by omega)) (owned 1 (by omega))
    _ = _ := walksFrom_next (TypeTrace.step_value calling.knows value) (behind 1 (by omega))
      (owned 2 (by omega))
    _ = _ := walksFrom_branch (TypeTrace.step_test test state) (behind 2 (by omega)) skips
      (owned 3 (by omega)) (owned 4 (by omega)), ?_⟩
  rcases calling.step_call (by omega) bound jump leads with ⟨waits, -⟩ | passed
  · exact .inl (walksFrom_blocked waits)
  · exact .inr ⟨_, walksFrom_next passed (behind 3 (by omega)) (owned 4 (by omega))⟩

/-- Behind some passages of the subroutine, the first path that completes comes behind no more others than
there are tests to come. -/
theorem Calling.clears_walksFrom (found : routines[context.sub]? = some (before ++ rest))
    (straight : ∀ callee, .call callee ∈ rest → context.Passes callee)
    (enough : lengths rest < steps) :
    (context.walksFrom false steps (some (context.program.entry context.sub + lengths before))
      (resting heights)).Clears (rest.countP (·.isGuarded)) := by
  induction rest generalizing before steps heights with
  | nil =>
      obtain ⟨steps, rfl⟩ := Nat.exists_eq_add_of_lt enough
      rw [List.append_nil] at found
      obtain ⟨position, stands⟩ := calling.made.standsAt_last found
      rw [Passage.length_codes] at stands
      generalize context.program.entry context.sub + lengths before = last at stands ⊢
      obtain ⟨outcome, finished, plain⟩ := TypeTrace.isPlain_resting ((last, 0) :: heights)
      have ended : ending false (resting ((last, 0) :: heights)) .ret = .complete outcome := by
        rw [ending, finished]
        rfl
      rw [walksFrom, TypeTrace.step_return stands.instruction]
      dsimp only
      rw [ended]
      exact DecisionTree.clears_leaf plain
  | cons passage rest induction =>
      have stretch := calling.made.stretch found
      rw [Passage.length_codes] at stretch
      have bound : ∀ callee, passage.callee? = some callee → callee < routines.length :=
        fun callee calls => calling.made.closed _ callee ⟨_, found, passage, by simp, calls⟩
      have further : routines[context.sub]? = some ((before ++ [passage]) ++ rest) := by
        rw [found, List.append_assoc]
        rfl
      have onward : ∀ steps heights, lengths rest < steps →
          (context.walksFrom false steps (some (context.program.entry context.sub +
            lengths (before ++ [passage]))) (resting heights)).Clears (rest.countP (·.isGuarded)) :=
        fun _ _ => induction further fun callee listed =>
          straight callee (List.mem_cons_of_mem _ listed)
      rw [Passage.lengths_append_singleton, ← Nat.add_assoc] at onward
      generalize context.program.entry context.sub + lengths before = first at stretch onward ⊢
      cases passage with
      | print text =>
          have enough : 2 + lengths rest < steps := enough
          obtain ⟨steps, rfl⟩ := Nat.exists_eq_add_of_le' (show 2 ≤ steps by omega)
          obtain ⟨after, walked⟩ := calling.walksFrom_print stretch
          rw [walked]
          exact onward steps after (by omega)
      | call callee =>
          have enough : 1 + lengths rest < steps := enough
          obtain ⟨steps, rfl⟩ := Nat.exists_eq_add_of_le' (show 1 ≤ steps by omega)
          obtain ⟨after, walked⟩ := calling.walksFrom_call stretch (bound callee rfl)
            (straight callee List.mem_cons_self)
          rw [walked]
          exact onward steps after (by omega)
      | guarded callee =>
          have enough : 4 + lengths rest < steps := enough
          obtain ⟨steps, rfl⟩ := Nat.exists_eq_add_of_le' (show 4 ≤ steps by omega)
          obtain ⟨falls, after, walked, waits⟩ := calling.walksFrom_guarded stretch (bound callee rfl)
          rw [walked, List.countP_cons_of_pos rfl]
          -- Paths through a call that waits end there, so the first to complete skips it.
          rcases waits with rfl | ⟨passed, rfl⟩
          · exact (onward (steps + 1) after (by omega)).of_takes _ _
          · exact (onward steps passed (by omega)).of_falls _ _

/-- The same holds from the entry of the subroutine on. -/
theorem Calling.clears_walks {passages : List Passage} (found : routines[context.sub]? = some passages)
    (straight : ∀ callee, .call callee ∈ passages → context.Passes callee) :
    (context.walks false).Clears (passages.countP (·.isGuarded)) := by
  have holder := calling.made.holder found
  have entered : context.program.body context.sub =
      List.range' (context.program.entry context.sub) (lengths passages + 1) := by
    rw [Program.body_eq holder, Program.entry_eq (Nat.le_of_lt (List.getElem?_eq_some_iff.mp holder).1),
      length_placedFrom, Passage.routine, List.length_append, Passage.length_codes]
    rfl
  have enough : lengths passages < context.stepLimit := by
    rw [stepLimit, entered, List.length_range']
    omega
  rw [walks, entered, List.range'_succ, List.head?_cons]
  have whole : routines[context.sub]? = some ([] ++ passages) := found
  exact calling.clears_walksFrom whole straight enough

end Calling

/-! ### The search -/

theorem cost_le (path : List Decision) : Decision.cost path ≤ path.length + 1 := by
  have part : (Decision.fresh path).length ≤ path.reverse.length := (List.takeWhile_prefix _).length_le
  rw [List.length_reverse] at part
  rw [Decision.cost]
  omega

/-- A search gets past paths that wait if there is room for their decisions. -/
theorem search_stops {stops : List (List Decision × Except Fault WalkResult)} {path : List Decision}
    {count cap : Nat} (queued : Nat) (waiting : Option Nat) (outcome : WalkOutcome)
    (later : List (List Decision × Except Fault WalkResult))
    (waits : ∀ stop ∈ stops, stop.1.length ≤ count ∧ ∃ callee, stop.2 = .ok (.blocked callee))
    (short : path.length ≤ count) (room : queued + (stops.length + 1) * (count + 1) ≤ cap) :
    ∃ total, search cap queued waiting (stops ++ (path, .ok (.complete outcome)) :: later) =
      .ok (.found outcome, total) := by
  induction stops generalizing queued waiting with
  | nil =>
      have cost := cost_le path
      refine ⟨queued + Decision.cost path, ?_⟩
      rw [List.nil_append, search, if_neg]
      · rfl
      · rw [List.length_nil] at room
        omega
  | cons stop stops induction =>
      obtain ⟨path, result⟩ := stop
      obtain ⟨bound, callee, rfl⟩ := waits _ List.mem_cons_self
      have cost := cost_le path
      dsimp only at bound
      rw [List.length_cons, Nat.succ_mul] at room
      obtain ⟨total, found⟩ := induction (queued + Decision.cost path) (some callee) (fun stop listed => waits stop (List.mem_cons_of_mem _ listed))
        (by omega)
      refine ⟨total, ?_⟩
      rw [List.cons_append, search, if_neg]
      · exact found
      · omega

/-- A budget of more paths than there are tests is enough. -/
theorem exists_explore_of_clears {count limit cap : Nat} (clears : (context.walks false).Clears count)
    (budget : count < limit) (room : (count + 1) * (count + 1) ≤ cap) :
    ∃ exploration outcome, context.explore (some limit) cap 0 .empty = .ok exploration ∧
      exploration.result = .found outcome ∧ outcome.IsPlain := by
  obtain ⟨stops, path, outcome, later, listed, plain, few, short, waits⟩ := clears
  have admitted : context.admitted (some limit) =
      stops ++ (path, .ok (.complete outcome)) :: later.take (limit - stops.length - 1) := by
    rw [TypingContext.admitted, paths, listed, Nat.max_eq_left (by omega), List.take_append,
      List.take_of_length_le (by omega)]
    obtain ⟨more, same⟩ : ∃ more, limit - stops.length = more + 1 := ⟨limit - stops.length - 1, by omega⟩
    rw [same, List.take_succ_cons, Nat.add_sub_cancel]
  have enough : 0 + (stops.length + 1) * (count + 1) ≤ cap := by
    rw [Nat.zero_add]
    exact (Nat.mul_le_mul_right _ (Nat.succ_le_succ few)).trans room
  obtain ⟨total, found⟩ := search_stops 0 none outcome (later.take (limit - stops.length - 1)) waits
    short enough
  have searched := context.explore_eq (some limit) cap 0
  rw [admitted, found] at searched
  cases explored : context.explore (some limit) cap 0 .empty with
  | error fault =>
      rw [explored] at searched
      cases searched
  | ok exploration =>
      rw [explored] at searched
      have same := congrArg Prod.fst (Except.ok.inj searched)
      exact ⟨exploration, outcome, rfl, same, plain⟩

end TypingContext
end NwScript
