import NwScript.Proofs.PathSearch

/-!
# Walks follow the declared stack effects

Two tables say how an instruction moves the stack: its declared effect, and its execution on a type
frame.  They agree wherever a walk goes on, so the height that a walk records before an instruction is
the sum of the effects declared for the instructions before it.  Only arithmetic on a pair of aggregates,
which no compiler emits, is declared otherwise.
-/

namespace NwScript

namespace SlotStack

variable {α : Type}

theorem height_of_pop? {stack rest : SlotStack α} {slot : α} (popped : stack.pop? = some (slot, rest)) :
    stack.height = rest.height + 1 := by
  obtain ⟨top, found, same⟩ := Option.map_eq_some_iff.mp popped
  obtain rfl := (Prod.mk.inj same).2
  have positive : 0 < stack.slots.size := by
    by_contra empty
    rw [Array.back?_eq_getElem?, Array.getElem?_eq_none (by omega)] at found
    cases found
  rw [height, height, Array.size_pop]
  omega

theorem height_eq_zero_of_pop? {stack : SlotStack α} (empty : stack.pop? = none) :
    stack.height = 0 := by
  rw [pop?, Option.map_eq_none_iff, Array.back?_eq_none_iff] at empty
  rw [height, empty]
  rfl

theorem height_truncate (stack : SlotStack α) (height : Nat) :
    (stack.truncate height).height = min height stack.height := by
  rw [← length_toList, toList_truncate, List.length_take, length_toList]

theorem height_set (stack : SlotStack α) (index : Nat) (slot : α) :
    (stack.set index slot).height = stack.height :=
  Array.size_setIfInBounds

theorem height_destructure? {stack next : SlotStack α} {count offset keep : Nat}
    (done : stack.destructure? count offset keep = some next) :
    next.height + count = stack.height + keep := by
  unfold destructure? at done
  split at done
  · rename_i fits
    cases done
    have kept : (stack.slice (stack.height - count + offset)
        (stack.height - count + offset + keep)).length = keep := by
      have size : stack.slots.size = stack.height := rfl
      rw [slice, Array.length_toList, Array.size_extract]
      omega
    rw [← length_toList, toList_pushAll, List.length_append, length_toList, height_truncate, kept]
    omega
  · cases done

end SlotStack

namespace Ty

mutual

theorem length_flatten : (type : Ty) → type.flatten.length = type.slots
  | .simple code => by cases code <;> rfl
  | .aggregate members => length_flattenAll members

theorem length_flattenAll : (members : List Ty) → (flattenAll members).length = slotsOf members
  | [] => rfl
  | member :: members => by
      rw [flattenAll_cons, slotsOf_cons, List.length_append, length_flatten member,
        length_flattenAll members]

end

end Ty

namespace TypeFrame

variable (frame : TypeFrame)

@[simp]
theorem height_push (slot : TypeSlot) : (frame.push slot).height = frame.height + 1 := by
  rw [height, height, push, SlotStack.height_push]
  push_cast
  omega

theorem height_foldl_push (slots : List TypeSlot) :
    (slots.foldl push frame).height = frame.height + slots.length := by
  induction slots generalizing frame with
  | nil => simp
  | cons slot slots induction =>
      rw [List.foldl_cons, induction, height_push, List.length_cons]
      push_cast
      omega

@[simp]
theorem height_pushType (type : Ty) : (frame.pushType type).height = frame.height + type.slots := by
  have pushed := frame.height_foldl_push (type.flatten.map .known)
  rw [List.foldl_map, List.length_map, Ty.length_flatten] at pushed
  exact pushed

@[simp]
theorem height_pop : frame.pop.2.height = frame.height - 1 := by
  unfold pop
  split
  · rename_i slot rest popped
    have size := SlotStack.height_of_pop? popped
    simp only [height, size]
    omega
  · rename_i empty
    have size := SlotStack.height_eq_zero_of_pop? empty
    simp only [height, size]
    omega

@[simp]
theorem height_discard (count : Nat) : (frame.discard count).height = frame.height - count := by
  simp only [height, discard, SlotStack.height_truncate]
  omega

@[simp]
theorem height_settle (index : Nat) (slot : TypeSlot) :
    (frame.settle index slot).height = frame.height := by
  unfold settle
  split
  · split
    · rfl
    · simp only [height, SlotStack.height_set]
  · rfl

end TypeFrame

/-- Arithmetic on a pair of aggregates, which is declared otherwise than it is executed. -/
def Instruction.IsAggregateArithmetic (instruction : Instruction) : Prop :=
  instruction.opcode.isArithmetic ∧ instruction.type = .structStruct

instance (instruction : Instruction) : Decidable instruction.IsAggregateArithmetic :=
  inferInstanceAs (Decidable (_ ∧ _))

/-- Control stays in the subroutine. -/
def Flow.GoesOn : Flow → Prop
  | .next | .goto _ | .branch _ => True
  | _ => False

namespace TypingContext

/-- The declared effect of an instruction, with the parameter slots of the callee if it is a call. -/
def effect? (context : TypingContext) (command : Nat) : Option StackEffect :=
  (context.program.instruction command).stackEffect? context.catalog
    (((context.calls.target? command).bind (context.protos[·]?)).map Prototype.slotCount)

end TypingContext

namespace TypeTrace

variable (trace : TypeTrace)

/-! ## Heights after the parts of an execution -/

@[simp]
theorem frame_unify (left right : TypeSlot) : (trace.unify left right).frame = trace.frame := by
  unfold unify
  dsimp only
  split <;> split <;> simp

/-- A loop of which each step moves the height by a constant. -/
theorem height_foldl_const {α : Type} {step : TypeTrace → α → TypeTrace} (width : Int)
    (moves : ∀ trace item, (step trace item).frame.height = trace.frame.height + width)
    (items : List α) :
    (items.foldl step trace).frame.height = trace.frame.height + items.length * width := by
  induction items generalizing trace with
  | nil => simp
  | cons item items induction =>
      rw [List.foldl_cons, induction, moves, List.length_cons]
      push_cast
      rw [Int.add_mul, Int.one_mul]
      omega

@[simp]
theorem height_push (slot : TypeSlot) : (trace.push slot).frame.height = trace.frame.height + 1 :=
  trace.frame.height_push slot

@[simp]
theorem height_pushType (type : Ty) :
    (trace.pushType type).frame.height = trace.frame.height + type.slots :=
  trace.frame.height_pushType type

@[simp]
theorem height_pop : trace.pop.2.frame.height = trace.frame.height - 1 :=
  trace.frame.height_pop

@[simp]
theorem height_popAt (type : Ty) : (trace.popAt type).frame.height = trace.frame.height - 1 := by
  simp [popAt]

@[simp]
theorem height_popValue (type : Ty) :
    (trace.popValue type).frame.height = trace.frame.height - type.slots := by
  rw [popValue, trace.height_foldl_const (-1) (fun trace type => trace.height_popAt type),
    List.length_reverse, Ty.length_flatten]
  omega

theorem popSlots_spec (count : Nat) : (trace.popSlots count).1.length = count ∧
    (trace.popSlots count).2.frame.height = trace.frame.height - count := by
  induction count generalizing trace with
  | zero => simp [popSlots]
  | succ count induction =>
      obtain ⟨length, height⟩ := induction trace.pop.2
      refine ⟨congrArg (· + 1) length, height.trans ?_⟩
      rw [height_pop]
      omega

theorem height_copyTop (first : Int) (count : Nat) :
    (trace.copyTop first count).frame.height = trace.frame.height + count := by
  unfold copyTop
  dsimp only
  rw [TypeFrame.height_foldl_push, List.length_map, addresses, List.length_map, List.length_range]

theorem height_copyDownOne (source target : Int) :
    (trace.copyDownOne source target).frame.height = trace.frame.height := by
  unfold copyDownOne
  dsimp only
  split <;> simp

theorem height_copyDown (first : Int) (count : Nat) :
    (trace.copyDown first count).frame.height = trace.frame.height := by
  rw [copyDown, trace.height_foldl_const 0 fun trace step => by
      rw [height_copyDownOne, Int.add_zero],
    Int.mul_zero, Int.add_zero]

theorem height_copyTopBase (globals : Array Ty) (offset : Int) (count : Nat) :
    (trace.copyTopBase globals offset count).frame.height = trace.frame.height + count := by
  rw [copyTopBase, trace.height_foldl_const 1, List.length_range, Int.mul_one]
  intro trace step
  split <;> exact trace.height_push _

theorem height_copyDownBase (globals : Array Ty) (offset : Int) (count : Nat) :
    (trace.copyDownBase globals offset count).frame.height = trace.frame.height := by
  rw [copyDownBase, trace.height_foldl_const 0, Int.mul_zero, Int.add_zero]
  intro trace step
  split <;> simp

theorem height_passArgument (callee : Nat) (param : Ty × Nat) :
    (passArgument callee trace param).frame.height = trace.frame.height - 1 := by
  unfold passArgument
  dsimp only
  split
  · simp
  · split
    · split <;> simp
    · simp

theorem height_receiveResult (result : List Ty) :
    (trace.receiveResult result).frame.height = trace.frame.height := by
  have settled : ∀ (members : List (Ty × Nat)) (first : Nat) (frame : TypeFrame),
      (members.foldl (fun frame member =>
        if member.1.isKnown then frame.settle (first + member.2) (.known member.1) else frame)
        frame).height = frame.height := by
    intro members first
    induction members with
    | nil => exact fun _ => rfl
    | cons member members induction =>
        intro frame
        rw [List.foldl_cons, induction]
        split <;> simp
  unfold receiveResult
  dsimp only
  split
  · exact settled _ _ _
  · rfl

/-- A call pops the parameter slots of the callee. -/
theorem height_call (callee : Nat) (proto : Prototype) :
    (trace.call callee proto).frame.height = trace.frame.height - proto.slotCount := by
  rw [call, height_receiveResult,
    trace.height_foldl_const (-1) (fun trace param => trace.height_passArgument callee param),
    List.length_zipIdx, Prototype.slotCount]
  omega

/-- An action pops its arguments, of which deferred ones have no slots, and pushes its result. -/
theorem height_action (params : List Ty) (result : Ty) :
    (trace.action params result).frame.height =
      trace.frame.height - Ty.slotsOf params + result.slots := by
  have popped : ∀ (params : List Ty) (trace : TypeTrace),
      ((params.filter (· ≠ .action)).foldl popValue trace).frame.height =
        trace.frame.height - Ty.slotsOf params := by
    intro params
    induction params with
    | nil => simp
    | cons param params induction =>
        intro trace
        rw [List.filter_cons, Ty.slotsOf_cons]
        split
        · rw [List.foldl_cons, induction, height_popValue]
          omega
        · rename_i deferred
          have none : param.slots = 0 := by
            rw [Classical.not_not.mp fun other => deferred (decide_eq_true other)]
            rfl
          rw [induction, none, Nat.zero_add]
  rw [action, height_pushType, popped]

/-- A comparison of aggregates pops both and pushes a truth value. -/
theorem height_compareStructs (width : Nat) :
    (trace.compareStructs width).frame.height = trace.frame.height - (width + width) + 1 := by
  obtain ⟨length, height⟩ := trace.popSlots_spec width
  unfold compareStructs
  dsimp only
  rw [height_push, height_foldl_const _ (-1), length, height]
  · omega
  · intro trace slot
    rw [frame_unify, height_pop]
    omega

/-- A binary operation pops both operands and pushes its result. -/
theorem height_binary {instruction : Instruction} {next : TypeTrace}
    (done : trace.binary instruction = some next) (regular : ¬instruction.IsAggregateArithmetic) :
    ∃ widths, instruction.operandSlots? = some widths ∧
      next.frame.height =
        trace.frame.height + ((instruction.resultSlots : Int) - (widths.1 + widths.2 : Nat)) := by
  unfold binary at done
  split at done
  · rename_i aggregates
    have plain : instruction.resultSlots = 1 := by
      rw [Instruction.resultSlots, if_neg fun arithmetic => regular ⟨arithmetic, aggregates⟩]
    obtain ⟨widths, found, rfl⟩ := Option.map_eq_some_iff.mp done
    refine ⟨widths, found, ?_⟩
    have same : widths.1 = widths.2 := by
      rw [Instruction.operandSlots?, if_pos aggregates] at found
      obtain ⟨bytes, _, rfl⟩ := Option.map_eq_some_iff.mp found
      rfl
    rw [height_compareStructs, plain, same]
    omega
  · rename_i simple
    obtain ⟨pair, found, rfl⟩ := Option.map_eq_some_iff.mp done
    refine ⟨_, by rw [Instruction.operandSlots?, if_neg simple, found]; rfl, ?_⟩
    have result : (binaryResult instruction).slots = instruction.resultSlots := by
      unfold binaryResult Instruction.resultSlots
      split <;> rfl
    rw [height_pushType, height_popValue, height_popValue, result]
    simp only [Ty.slots]
    omega

/-! ## Heights after an instruction -/

theorem eq_of_proceed {made : Option TypeTrace} {flow : Flow} {next : TypeTrace}
    (proceeded : trace.proceed made = (flow, next)) (onward : flow.GoesOn) : made = some next := by
  cases made with
  | none =>
      cases proceeded
      exact onward.elim
  | some changed =>
      cases proceeded
      rfl

/-- A conditional jump pops its condition. -/
theorem height_conditional {context : TypingContext} {command : Nat} {flow : Flow}
    {next : TypeTrace}
    (executed : (do
      let popped := trace.popAt .int
      if (← context.table.state command) = .shortCircuit then
        return (.next, popped)
      else
        return (.branch command, popped) : Except Fault (Flow × TypeTrace)) = .ok (flow, next)) :
    next.frame.height = trace.frame.height + (0 - 1) := by
  cases found : context.table.state command with
  | error fault =>
      rw [found] at executed
      cases executed
  | ok state =>
      simp only [found, bind, Except.bind] at executed
      split at executed
      all_goals
        cases executed
        exact trace.height_popAt _

/-- Where execution goes on, it moves the height by the declared effect. -/
theorem height_execute {context : TypingContext} {globalsOnly : Bool} {command : Nat}
    {flow : Flow} {next : TypeTrace}
    (executed : execute context globalsOnly command trace = .ok (flow, next))
    (onward : flow.GoesOn) (regular : ¬(context.program.instruction command).IsAggregateArithmetic) :
    ∃ effect, context.effect? command = some effect ∧
      next.frame.height = trace.frame.height + effect.net := by
  unfold execute at executed
  dsimp only at executed
  unfold TypingContext.effect? Instruction.stackEffect?
  split at executed
  case h_1 opcode =>
    cases executed
    exact ⟨_, by rw [opcode], by simp [StackEffect.net, Ty.slots]⟩
  case h_2 opcode =>
    cases executed
    exact ⟨_, by rw [opcode], by simp [StackEffect.net]⟩
  case h_3 opcode =>
    obtain ⟨operand, found, rfl⟩ := Option.map_eq_some_iff.mp
      (trace.eq_of_proceed (Except.ok.inj executed) onward)
    exact ⟨_, by rw [opcode, found]; rfl, by rw [height_copyTop]; simp [StackEffect.net]⟩
  case h_4 opcode =>
    obtain ⟨operand, found, rfl⟩ := Option.map_eq_some_iff.mp
      (trace.eq_of_proceed (Except.ok.inj executed) onward)
    exact ⟨_, by rw [opcode]; rfl, by rw [height_copyDown]; simp [StackEffect.net]⟩
  case h_5 opcode =>
    obtain ⟨operand, found, rfl⟩ := Option.map_eq_some_iff.mp
      (trace.eq_of_proceed (Except.ok.inj executed) onward)
    exact ⟨_, by rw [opcode, found]; rfl, by rw [height_copyTopBase]; simp [StackEffect.net]⟩
  case h_6 opcode =>
    refine ⟨⟨0, 0⟩, by rw [opcode]; rfl, ?_⟩
    split at executed
    · cases executed
      rw [height_copyDownBase]
      simp [StackEffect.net]
    · cases executed
      simp [StackEffect.net]
  case h_7 opcode =>
    obtain ⟨offset, found, rfl⟩ := Option.map_eq_some_iff.mp
      (trace.eq_of_proceed (Except.ok.inj executed) onward)
    refine ⟨_, by rw [opcode, found]; rfl, ?_⟩
    rw [TypeFrame.height_discard]
    simp [StackEffect.net]
    omega
  case h_8 opcode =>
    have made := trace.eq_of_proceed (Except.ok.inj executed) onward
    obtain ⟨operand, found, made⟩ := Option.bind_eq_some_iff.mp made
    obtain ⟨signature, known, made⟩ := Option.bind_eq_some_iff.mp made
    obtain rfl := Option.some.inj made
    refine ⟨_, by rw [opcode, found]; simp [ActionCatalog.slots?, known]; rfl, ?_⟩
    rw [height_action]
    simp [StackEffect.net]
    omega
  case h_9 opcode =>
    unfold stepCall at executed
    split at executed
    · cases executed
      exact onward.elim
    · rename_i callee called
      split at executed
      · cases executed
        exact onward.elim
      · rename_i proto known
        split at executed
        · cases executed
          exact onward.elim
        · cases executed
          refine ⟨⟨proto.slotCount, 0⟩, by rw [opcode, called]; simp [known], ?_⟩
          rw [height_call]
          simp [StackEffect.net]
          omega
  case h_10 opcode =>
    cases found : context.table.destination command with
    | error fault =>
        rw [found] at executed
        cases executed
    | ok destination =>
        rw [found] at executed
        cases executed
        exact ⟨⟨0, 0⟩, by rw [opcode]; rfl, by simp [StackEffect.net]⟩
  case h_11 opcode =>
    exact ⟨⟨1, 0⟩, by rw [opcode], trace.height_conditional executed⟩
  case h_12 opcode =>
    exact ⟨⟨1, 0⟩, by rw [opcode], trace.height_conditional executed⟩
  case h_13 opcode =>
    cases executed
    exact onward.elim
  case h_14 opcode =>
    split at executed
    · rename_i size offset keep operand
      obtain ⟨pushed, done, rfl⟩ := Option.map_eq_some_iff.mp
        (trace.eq_of_proceed (Except.ok.inj executed) onward)
      refine ⟨⟨size / 4, keep / 4⟩, by simp [opcode, operand], ?_⟩
      have moved := SlotStack.height_destructure? done
      simp only [TypeFrame.height, StackEffect.net]
      omega
    · cases executed
      exact onward.elim
  case h_15 opcode =>
    refine ⟨⟨0, 0⟩, by rw [opcode]; rfl, ?_⟩
    split at executed <;> cases executed <;> simp [StackEffect.net]
  case h_16 opcode =>
    refine ⟨⟨0, 0⟩, by rw [opcode]; rfl, ?_⟩
    split at executed <;> cases executed <;> simp [StackEffect.net]
  case h_17 opcode =>
    cases executed
    exact ⟨⟨0, 0⟩, by rw [opcode]; rfl, by simp [StackEffect.net]⟩
  case h_18 opcode =>
    cases executed
    exact ⟨⟨1, 1⟩, by rw [opcode]; rfl, by simp [StackEffect.net]⟩
  case h_19 opcode =>
    cases executed
    exact ⟨⟨1, 1⟩, by rw [opcode]; rfl, by simp [StackEffect.net]⟩
  case h_20 opcode =>
    cases executed
    exact ⟨⟨1, 1⟩, by rw [opcode]; rfl, by simp [StackEffect.net]⟩
  case h_21 =>
    split at executed
    · rename_i binary
      obtain ⟨widths, found, moved⟩ := trace.height_binary
        (trace.eq_of_proceed (Except.ok.inj executed) onward) regular
      refine ⟨⟨widths.1 + widths.2, (context.program.instruction command).resultSlots⟩, ?_, moved⟩
      split
      case h_11 =>
        rw [if_pos binary, found]
        rfl
      all_goals contradiction
    · rename_i not_binary
      have not_unary : ¬(context.program.instruction command).opcode.isUnary = true := by
        unfold Opcode.isUnary
        split
        case h_4 => exact Bool.false_ne_true
        all_goals contradiction
      cases executed
      refine ⟨⟨0, 0⟩, ?_, by simp [StackEffect.net]⟩
      split
      case h_11 => rw [if_neg not_binary, if_neg not_unary]
      all_goals contradiction

theorem proceed_ne_ret (made : Option TypeTrace) : (trace.proceed made).1 ≠ .ret := by
  cases made <;> exact Flow.noConfusion

theorem stepCall_ne_ret (context : TypingContext) (command : Nat) :
    (stepCall context command trace).1 ≠ .ret := by
  unfold stepCall
  split
  · exact Flow.noConfusion
  · split
    · exact Flow.noConfusion
    · split <;> exact Flow.noConfusion

theorem jumpFlow_ne_ret (context : TypingContext) (command : Nat) (destination : Option Nat) :
    jumpFlow context command destination ≠ .ret := by
  unfold jumpFlow
  split
  · split <;> exact Flow.noConfusion
  · exact Flow.noConfusion

/-- Only a return leaves the subroutine, and it leaves the stack as it is. -/
theorem eq_of_execute_ret {context : TypingContext} {globalsOnly : Bool} {command : Nat}
    {next : TypeTrace} (executed : execute context globalsOnly command trace = .ok (.ret, next)) :
    (context.program.instruction command).opcode = .ret ∧ next = trace := by
  have refuted : ∀ {pair : Flow × TypeTrace}, pair.1 ≠ .ret →
      (.ok pair : Except Fault (Flow × TypeTrace)) ≠ .ok (.ret, next) :=
    fun other same => other (congrArg Prod.fst (Except.ok.inj same))
  unfold execute at executed
  dsimp only at executed
  split at executed
  case h_13 opcode =>
    cases executed
    exact ⟨opcode, rfl⟩
  case h_3 | h_4 | h_5 | h_7 | h_8 => exact absurd executed (refuted (trace.proceed_ne_ret _))
  case h_9 => exact absurd executed (refuted (trace.stepCall_ne_ret context command))
  case h_10 =>
    cases found : context.table.destination command with
    | error fault =>
        rw [found] at executed
        cases executed
    | ok destination =>
        rw [found] at executed
        exact absurd executed (refuted (jumpFlow_ne_ret context command destination))
  case h_11 | h_12 =>
    cases found : context.table.state command with
    | error fault =>
        rw [found] at executed
        cases executed
    | ok state =>
        simp only [found, bind, Except.bind] at executed
        split at executed <;> cases executed
  case h_14 | h_21 =>
    split at executed
    · exact absurd executed (refuted (trace.proceed_ne_ret _))
    · cases executed
  case h_6 | h_15 | h_16 => split at executed <;> cases executed
  case h_17 => cases globalsOnly <;> cases executed
  all_goals cases executed

end TypeTrace

namespace TypingContext

variable {context : TypingContext} {globalsOnly : Bool}

/-! ## Heights along a walk -/

/-- The height that the declared effects of some instructions lead to. -/
def declaredHeight? (context : TypingContext) (commands : List Nat) : Option Int :=
  commands.foldlM
    (fun height command => (context.effect? command).map fun effect => height + effect.net) 0

theorem declaredHeight?_append {commands : List Nat} {height : Int} {command : Nat}
    {effect : StackEffect} (declared : context.declaredHeight? commands = some height)
    (effects : context.effect? command = some effect) :
    context.declaredHeight? (commands ++ [command]) = some (height + effect.net) := by
  rw [declaredHeight?, List.foldlM_append]
  rw [declaredHeight?] at declared
  simp [declared, effects]

/-- No instruction of some entries is arithmetic on a pair of aggregates. -/
def AllRegular (context : TypingContext) (entries : List (Nat × Int)) : Prop :=
  ∀ entry ∈ entries, ¬(context.program.instruction entry.1).IsAggregateArithmetic

/-- The height recorded before each instruction is the declared one. -/
def AllDeclared (context : TypingContext) (entries : List (Nat × Int)) : Prop :=
  ∀ before command height after, entries = before ++ (command, height) :: after →
    context.AllRegular before → context.declaredHeight? (before.map (·.1)) = some height

/-- The heights that a trace has recorded are the declared ones, and so is its own. -/
structure IsAccounted (context : TypingContext) (trace : TypeTrace) : Prop where
  /-- The recorded heights are declared. -/
  recorded : context.AllDeclared trace.heights.reverse
  /-- So is the height of the frame. -/
  current : context.AllRegular trace.heights.reverse →
    context.declaredHeight? (trace.heights.reverse.map (·.1)) = some trace.frame.height

theorem isAccounted_start : context.IsAccounted {} := by
  refine ⟨?_, fun _ => rfl⟩
  intro before command height after same
  simp at same

/-- An instruction records the height before it. -/
theorem heights_of_step {trace next : TypeTrace} {command : Nat} {flow : Flow}
    (stepped : trace.step context globalsOnly command = .ok (flow, next)) :
    next.heights.reverse = trace.heights.reverse ++ [(command, trace.frame.height)] := by
  rw [TypeTrace.heights_execute _ stepped, List.reverse_cons]

/-- What an instruction records is declared. -/
theorem IsAccounted.allDeclared {trace next : TypeTrace} {command : Nat} {flow : Flow}
    (accounted : context.IsAccounted trace)
    (stepped : trace.step context globalsOnly command = .ok (flow, next)) :
    context.AllDeclared next.heights.reverse := by
  intro before other height after same regular
  rw [heights_of_step stepped] at same
  rcases List.eq_nil_or_concat after with rfl | ⟨later, last, rfl⟩
  · obtain ⟨rfl, here⟩ := List.append_inj' same rfl
    obtain ⟨_, rfl⟩ := Prod.mk.inj (List.cons.inj here).1
    exact accounted.current regular
  · rw [List.concat_eq_append, ← List.cons_append, ← List.append_assoc] at same
    exact accounted.recorded before other height later (List.append_inj' same rfl).1 regular

/-- Where a walk goes on, its heights are still the declared ones. -/
theorem IsAccounted.step {trace next : TypeTrace} {command : Nat} {flow : Flow}
    (accounted : context.IsAccounted trace)
    (stepped : trace.step context globalsOnly command = .ok (flow, next)) (onward : flow.GoesOn) :
    context.IsAccounted next := by
  refine ⟨accounted.allDeclared stepped, fun regular => ?_⟩
  rw [heights_of_step stepped] at regular ⊢
  have before := accounted.current fun entry listed => regular entry (List.mem_append_left _ listed)
  obtain ⟨effect, declared, moved⟩ := TypeTrace.height_execute _ stepped onward
    (regular _ (List.mem_append_right _ List.mem_cons_self))
  rw [List.map_append, moved]
  exact declaredHeight?_append before declared

/-! ## Whole walks -/

/-- Walk on from an instruction, for at most `steps` more instructions, and give the trace as well. -/
def tracedFrom (context : TypingContext) (globalsOnly : Bool) :
    (steps : Nat) → Option Nat → TypeTrace → DecisionQueue →
      Except Fault ((WalkResult × DecisionQueue) × TypeTrace)
  | _, none, trace, queue => .ok ((.failed, queue), trace)
  | 0, some _, trace, queue => .ok ((.failed, queue), trace)
  | steps + 1, some command, trace, queue => do
      let (flow, trace) ← trace.step context globalsOnly command
      match ← context.successor command queue flow with
      | (none, queue) => return ((ending globalsOnly trace flow, queue), trace)
      | (some none, queue) => return ((.failed, queue), trace)
      | (some (some next), queue) =>
          if context.program.owner next = context.sub then
            tracedFrom context globalsOnly steps (some next) trace queue
          else
            return ((.failed, queue), trace)

/-- Walk from the entry of the subroutine, for at most `steps` instructions. -/
def traced (context : TypingContext) (globalsOnly : Bool) (steps : Nat) (queue : DecisionQueue) :
    Except Fault ((WalkResult × DecisionQueue) × TypeTrace) :=
  context.tracedFrom globalsOnly steps (context.program.body context.sub).head? {} queue

theorem map_tracedFrom (steps : Nat) (command : Option Nat) (trace : TypeTrace)
    (queue : DecisionQueue) :
    (context.tracedFrom globalsOnly steps command trace queue).map (·.1) =
      context.walkFrom globalsOnly steps command trace queue := by
  induction steps generalizing command trace queue with
  | zero => cases command <;> rfl
  | succ steps induction =>
      cases command with
      | none => rfl
      | some command =>
          rw [tracedFrom, walkFrom]
          cases stepped : trace.step context globalsOnly command with
          | error fault => rfl
          | ok pair =>
              obtain ⟨flow, changed⟩ := pair
              simp only [bind, Except.bind]
              cases moved : context.successor command queue flow with
              | error fault => rfl
              | ok pair =>
                  obtain ⟨target, queue⟩ := pair
                  rcases target with _ | _ | next
                  · rfl
                  · rfl
                  · dsimp only
                    split
                    · exact induction _ _ _
                    · rfl

/-- A completed walk ends at a return, and its parameter slots undo the height there. -/
def EndsAtReturn (context : TypingContext) (entries : List (Nat × Int)) (count : Nat) : Prop :=
  ∃ before last height, entries = before ++ [(last, height)] ∧
    (context.program.instruction last).opcode = .ret ∧ (count : Int) = -height

theorem length_of_finish? {trace : TypeTrace} {outcome : WalkOutcome}
    (done : trace.finish? = some outcome) : (outcome.slots.length : Int) = -trace.frame.height := by
  unfold TypeTrace.finish? at done
  split at done
  · cases done
  · cases done
    rw [List.length_map, List.length_range]
    omega

theorem goesOn_of_successor {command : Nat} {queue walked : DecisionQueue} {flow : Flow}
    {target : Option Nat} (moved : context.successor command queue flow = .ok (some target, walked)) :
    flow.GoesOn := by
  cases flow <;> first | trivial | cases moved

/-- Walking on keeps the heights declared, and ends at a return if it completes. -/
theorem IsAccounted.tracedFrom {steps : Nat} {command : Option Nat} {trace final : TypeTrace}
    {queue walked : DecisionQueue} {result : WalkResult} (accounted : context.IsAccounted trace)
    (went : context.tracedFrom globalsOnly steps command trace queue =
      .ok ((result, walked), final)) :
    context.AllDeclared final.heights.reverse ∧ ∀ outcome, result = .complete outcome →
      outcome.heights = final.heights.reverse ∧
        context.EndsAtReturn outcome.heights outcome.slots.length := by
  induction steps generalizing command trace queue with
  | zero =>
      cases command <;> cases went <;> exact ⟨accounted.recorded, by rintro _ ⟨⟩⟩
  | succ steps induction =>
      cases command with
      | none =>
          cases went
          exact ⟨accounted.recorded, by rintro _ ⟨⟩⟩
      | some command =>
          rw [TypingContext.tracedFrom] at went
          cases stepped : trace.step context globalsOnly command with
          | error fault =>
              rw [stepped] at went
              cases went
          | ok pair =>
              obtain ⟨flow, changed⟩ := pair
              simp only [stepped, bind, Except.bind] at went
              cases moved : context.successor command queue flow with
              | error fault =>
                  rw [moved] at went
                  cases went
              | ok pair =>
                  obtain ⟨target, turned⟩ := pair
                  rw [moved] at went
                  rcases target with _ | _ | next
                  · cases went
                    refine ⟨accounted.allDeclared stepped, fun outcome completes => ?_⟩
                    have done := finish?_of_ending completes
                    obtain ⟨recorded, -⟩ := records_of_finish? done
                    have returns : flow = .ret := by
                      cases flow <;> first | rfl | cases completes
                    subst returns
                    obtain ⟨opcode, same⟩ := TypeTrace.eq_of_execute_ret _ stepped
                    have slots := length_of_finish? done
                    refine ⟨recorded, _, _, _, recorded.trans (heights_of_step stepped), opcode, ?_⟩
                    rw [slots, same]
                  · cases went
                    exact ⟨accounted.allDeclared stepped, by rintro _ ⟨⟩⟩
                  · dsimp only at went
                    split at went
                    · exact induction (accounted.step stepped (goesOn_of_successor moved)) went
                    · cases went
                      exact ⟨accounted.allDeclared stepped, by rintro _ ⟨⟩⟩

/-- Walks follow the declared stack effects.  However far a walk goes, the height that it records before
an instruction is the sum of the effects declared for the instructions before it; and if it completes,
then at a return, where as many slots as the prototype gets parameters lie below the entry.  Only
arithmetic on a pair of aggregates is excepted. -/
theorem walk_heights_declared (context : TypingContext) (globalsOnly : Bool) (queue : DecisionQueue) :
    context.walk globalsOnly queue =
        (context.traced globalsOnly context.stepLimit queue).map (·.1) ∧
    ∀ steps result walked trace,
      context.traced globalsOnly steps queue = .ok ((result, walked), trace) →
      (∀ before command height after,
        trace.heights.reverse = before ++ (command, height) :: after →
        (∀ entry ∈ before, ¬(context.program.instruction entry.1).IsAggregateArithmetic) →
        context.declaredHeight? (before.map (·.1)) = some height) ∧
      ∀ outcome, result = .complete outcome → outcome.heights = trace.heights.reverse ∧
        ∃ before last height, outcome.heights = before ++ [(last, height)] ∧
          (context.program.instruction last).opcode = .ret ∧
          (outcome.slots.length : Int) = -height := by
  refine ⟨(map_tracedFrom _ _ _ _).symm, fun steps result walked trace went => ?_⟩
  exact isAccounted_start.tracedFrom went

theorem walk_heights_declared_recursingWalks :
    ∃ walked trace, recursingWalks.traced false recursingWalks.stepLimit ⟨#[⟨1, true⟩], 0⟩ =
        .ok ((.complete aroundCall, walked), trace) ∧
      aroundCall.heights = trace.heights.reverse ∧
      recursingWalks.declaredHeight? [0, 1, 4] = some (-1) := by
  obtain ⟨_, all⟩ := walk_heights_declared recursingWalks false ⟨#[⟨1, true⟩], 0⟩
  obtain ⟨declared, ended⟩ := all recursingWalks.stepLimit (.complete aroundCall) _ _ rfl
  exact ⟨_, _, rfl, (ended aroundCall rfl).1,
    declared [(0, 0), (1, 1), (4, 0)] 5 (-1) [] rfl (by decide)⟩

end TypingContext

end NwScript
