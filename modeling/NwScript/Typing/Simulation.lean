import NwScript.Bytecode.StackEffect
import NwScript.Calls.CallGraph
import NwScript.Prototype
import NwScript.Typing.Frame

/-!
# Simulation of types

One walk through a subroutine executes its instructions on a type frame.  Uses of the caller's slots
are evidence for parameter types, writes to them show the result, and arguments passed to callees
refine the callees' parameters.  A completed walk gives a prototype.
-/

namespace NwScript

/-- What a simulation reads. -/
structure TypingContext where
  /-- The program. -/
  program : Program
  /-- Its liveness. -/
  table : FlowTable
  /-- Its calls. -/
  calls : CallGraph
  /-- Engine actions. -/
  catalog : ActionCatalog
  /-- Types of the global slots, bottom first. -/
  globals : Array Ty
  /-- Prototypes by subroutine. -/
  protos : Array Prototype
  /-- The subroutine that is walked. -/
  sub : Nat

/-- A parameter type of a callee learned from an argument. -/
structure Refinement where
  /-- The callee. -/
  callee : Nat
  /-- The parameter slot. -/
  slot : Nat
  /-- The type of the argument. -/
  type : Ty
  deriving DecidableEq, Repr, Inhabited

/-- What a completed walk shows. -/
structure WalkOutcome where
  /-- Types of the parameter slots. -/
  slots : List Ty
  /-- Parameter slots copied as one value. -/
  groups : List (Nat × Nat)
  /-- Type of the result. -/
  returnType : Ty
  /-- The caller's slot where the result begins. -/
  returnDepth : Option Nat
  /-- Parameter types of callees. -/
  refinements : List Refinement
  /-- Stack height before each executed instruction. -/
  heights : List (Nat × Int)
  deriving DecidableEq, Repr, Inhabited

/-- Where control goes after an instruction. -/
inductive Flow where
  /-- To the next instruction. -/
  | next
  /-- To a jump destination. -/
  | goto (destination : Nat)
  /-- Either way of a conditional jump. -/
  | branch (command : Nat)
  /-- Out of the subroutine. -/
  | ret
  /-- The globals are complete. -/
  | saveBase
  /-- Nowhere before the prototype of a callee is known. -/
  | blocked (callee : Nat)
  /-- Nowhere: the instruction cannot be executed. -/
  | stuck
  deriving DecidableEq, Repr, Inhabited

/-- A walk under way. -/
structure TypeTrace where
  /-- The stack. -/
  frame : TypeFrame := {}
  /-- Type of the caller's slots by their first telling use. -/
  evidence : List (Nat × Ty) := []
  /-- Writes to the caller's slots, the last one first. -/
  writes : List (Nat × TypeSlot) := []
  /-- Caller's slots copied as one value. -/
  groups : List (Nat × Nat) := []
  /-- Parameter types of callees, the last one first. -/
  refinements : List Refinement := []
  /-- Heights before the executed instructions, the last one first. -/
  heights : List (Nat × Int) := []
  deriving DecidableEq, Repr, Inhabited

namespace TypeTrace

/-- Take a use of a slot at a one-slot type as evidence, if it is a caller's slot without any. -/
def note (trace : TypeTrace) (slot : TypeSlot) (type : Ty) : TypeTrace :=
  match slot with
  | .belowEntry index =>
      if type.isKnown ∧ type.slots = 1 ∧ (trace.evidence.lookup index).isNone then
        { trace with evidence := (index, type) :: trace.evidence }
      else
        trace
  | _ => trace

/-- An inference leaves the frame as it is. -/
@[simp]
theorem frame_note (trace : TypeTrace) (slot : TypeSlot) (type : Ty) :
    (trace.note slot type).frame = trace.frame := by
  unfold note
  split
  · split <;> rfl
  · rfl

/-- Take it as evidence that two slots hold values of one type. -/
def unify (trace : TypeTrace) (left right : TypeSlot) : TypeTrace :=
  let trace := match right.type? with
    | some type => trace.note left type
    | none => trace
  match left.type? with
  | some type => trace.note right type
  | none => trace

/-- Push a slot. -/
def push (trace : TypeTrace) (slot : TypeSlot) : TypeTrace :=
  { trace with frame := trace.frame.push slot }

/-- Push the slots of a value. -/
def pushType (trace : TypeTrace) (type : Ty) : TypeTrace :=
  { trace with frame := trace.frame.pushType type }

/-- Pop a slot. -/
def pop (trace : TypeTrace) : TypeSlot × TypeTrace :=
  let (slot, frame) := trace.frame.pop
  (slot, { trace with frame })

/-- Pop a slot that is used at a type. -/
def popAt (trace : TypeTrace) (type : Ty) : TypeTrace :=
  let (slot, trace) := trace.pop
  trace.note slot type

/-- Pop a value that is used at a type. -/
def popValue (trace : TypeTrace) (type : Ty) : TypeTrace :=
  type.flatten.reverse.foldl popAt trace

/-- Pop some slots, the top one first. -/
def popSlots (trace : TypeTrace) : Nat → List TypeSlot × TypeTrace
  | 0 => ([], trace)
  | count + 1 =>
      let (slot, trace) := trace.pop
      let (slots, trace) := trace.popSlots count
      (slot :: slots, trace)

/-- Addresses of consecutive slots from an offset on. -/
def addresses (trace : TypeTrace) (first : Int) (count : Nat) : List TypeFrame.Address :=
  (List.range count).map fun (step : Nat) => trace.frame.resolve (first + step)

/-- The group of the caller's slots that a copy takes as one value. -/
def groupOf? (addresses : List TypeFrame.Address) : Option (Nat × Nat) :=
  let below := addresses.filterMap fun
    | .callers index => some index
    | .stored _ => none
  if 1 < addresses.length ∧ below.length = addresses.length then
    below.min?.map (·, addresses.length)
  else
    none

/-- Copy slots to the top. -/
def copyTop (trace : TypeTrace) (first : Int) (count : Nat) : TypeTrace :=
  let addresses := trace.addresses first count
  let groups := match groupOf? addresses with
    | some group => if group ∈ trace.groups then trace.groups else trace.groups ++ [group]
    | none => trace.groups
  let slots := addresses.map trace.frame.read
  { trace with groups, frame := slots.foldl TypeFrame.push trace.frame }

/-- Copy one slot down: from `source` slots above the top to `target` slots above it. -/
def copyDownOne (trace : TypeTrace) (source target : Int) : TypeTrace :=
  let slot := trace.frame.read (trace.frame.resolve source)
  let address := trace.frame.resolve target
  let trace := trace.unify slot (trace.frame.read address)
  match address with
  | .stored index => { trace with frame := trace.frame.settle index slot }
  | .callers index => { trace with writes := (index, slot) :: trace.writes }

/-- Copy the top slots down. -/
def copyDown (trace : TypeTrace) (first : Int) (count : Nat) : TypeTrace :=
  (List.range count).foldl
    (fun trace (step : Nat) => trace.copyDownOne ((step : Int) - count) (first + step)) trace

/-- Index of a global slot addressed by a byte offset. -/
def globalIndex? (globals : Array Ty) (offset : Int) (step : Nat) : Option Nat :=
  let index := (globals.size : Int) + offset.tdiv 4 + step
  if 0 ≤ index then some index.toNat else none

/-- The type of a global slot addressed by a byte offset. -/
def global? (globals : Array Ty) (offset : Int) (step : Nat) : Option Ty :=
  (globalIndex? globals offset step).bind fun index => globals[index]?

/-- Copy global slots to the top. -/
def copyTopBase (trace : TypeTrace) (globals : Array Ty) (offset : Int) (count : Nat) :
    TypeTrace :=
  (List.range count).foldl
    (fun trace step =>
      match (global? globals offset step).filter Ty.isKnown with
      | some type => trace.push (.known type)
      | none => trace.push .unknown) trace

/-- Copy the top slots to global slots, which shows their types. -/
def copyDownBase (trace : TypeTrace) (globals : Array Ty) (offset : Int) (count : Nat) :
    TypeTrace :=
  (List.range count).foldl
    (fun trace step =>
      match global? globals offset step with
      | some type =>
          trace.note (trace.frame.read (trace.frame.resolve ((step : Int) - count))) type
      | none => trace) trace

/-- Pass one argument to a callee; an unknown parameter learns the type of the argument. -/
def passArgument (callee : Nat) (trace : TypeTrace) (param : Ty × Nat) : TypeTrace :=
  let (slot, trace) := trace.pop
  if param.1.isKnown then
    trace.note slot param.1
  else
    match slot.type? with
    | some type =>
        if type.isKnown then
          { trace with refinements := ⟨callee, param.2, type⟩ :: trace.refinements }
        else
          trace
    | none => trace

/-- Type the slots reserved for a result, which lie on top. -/
def receiveResult (trace : TypeTrace) (result : List Ty) : TypeTrace :=
  let top := trace.frame.pushed.height
  if result.length ≤ top then
    let first := top - result.length
    let frame := result.zipIdx.foldl
      (fun frame member =>
        if member.1.isKnown then frame.settle (first + member.2) (.known member.1) else frame)
      trace.frame
    { trace with frame }
  else
    trace

/-- Execute a call of a callee whose prototype is known. -/
def call (trace : TypeTrace) (callee : Nat) (proto : Prototype) : TypeTrace :=
  let passed := proto.slots.zipIdx.foldl (passArgument callee) trace
  passed.receiveResult proto.returnType.flatten

/-- Execute an action call: pop the arguments that are values and push the result. -/
def action (trace : TypeTrace) (params : List Ty) (result : Ty) : TypeTrace :=
  let popped := (params.filter (· ≠ .action)).foldl popValue trace
  popped.pushType result

/-- Execute a comparison of aggregates of some width. -/
def compareStructs (trace : TypeTrace) (width : Nat) : TypeTrace :=
  let (right, trace) := trace.popSlots width
  let trace := right.foldl
    (fun trace slot =>
      let (left, trace) := trace.pop
      trace.unify left slot) trace
  trace.push (.known .int)

/-- The type of a binary operation's result. -/
def binaryResult (instruction : Instruction) : Ty :=
  if instruction.opcode.isArithmetic then .simple instruction.type.arithmeticResult else .int

/-- Execute a binary operation. -/
def binary (trace : TypeTrace) (instruction : Instruction) : Option TypeTrace :=
  if instruction.type = .structStruct then
    instruction.operandSlots?.map fun widths => trace.compareStructs widths.2
  else
    instruction.type.operands.map fun pair =>
      ((trace.popValue (.simple pair.2)).popValue (.simple pair.1)).pushType
        (binaryResult instruction)

/-- Go on to the next instruction, or get stuck when an operand is missing. -/
def proceed (trace : TypeTrace) (next : Option TypeTrace) : Flow × TypeTrace :=
  match next with
  | some trace => (.next, trace)
  | none => (.stuck, trace)

/-- Where a plain jump goes; walks do not follow it backwards. -/
def jumpFlow (context : TypingContext) (command : Nat) : Option Nat → Flow
  | some destination =>
      if context.program.position command < context.program.position destination then
        .goto destination
      else
        .next
  | none => .stuck

/-- Execute a call instruction. -/
def stepCall (context : TypingContext) (command : Nat) (trace : TypeTrace) : Flow × TypeTrace :=
  match context.calls.target? command with
  | none => (.stuck, trace)
  | some callee =>
      match context.protos[callee]? with
      | none => (.stuck, trace)
      | some proto =>
          if callee = context.sub ∨ !proto.isPrototyped then (.blocked callee, trace)
          else (.next, trace.call callee proto)

/-- Execute an action instruction. -/
def stepAction (context : TypingContext) (instruction : Instruction) (trace : TypeTrace) :
    Flow × TypeTrace :=
  trace.proceed do
    let (id, argumentCount) ← instruction.actionOperand?
    let signature ← context.catalog.find? id
    return trace.action (signature.params.take argumentCount) signature.returnType

/-- Execute an instruction. -/
def execute (context : TypingContext) (globalsOnly : Bool) (command : Nat) (trace : TypeTrace) :
    Except Fault (Flow × TypeTrace) :=
  let instruction := context.program.instruction command
  match instruction.opcode with
  | .reserve => .ok (.next, trace.pushType (.simple instruction.type))
  | .const => .ok (.next, trace.push (.known (.simple instruction.type)))
  | .copyTop =>
      .ok (trace.proceed (instruction.stackOperand?.map fun operand =>
        trace.copyTop (operand.1.tdiv 4) (operand.2 / 4)))
  | .copyDown =>
      .ok (trace.proceed (instruction.stackOperand?.map fun operand =>
        trace.copyDown (operand.1.tdiv 4) (operand.2 / 4)))
  | .copyTopBase =>
      .ok (trace.proceed (instruction.stackOperand?.map fun operand =>
        trace.copyTopBase context.globals operand.1 (operand.2 / 4)))
  | .copyDownBase =>
      match instruction.stackOperand? with
      | some (offset, size) => .ok (.next, trace.copyDownBase context.globals offset (size / 4))
      | none => .ok (.next, trace)
  | .moveStack =>
      .ok (trace.proceed (instruction.offset?.map fun offset =>
        { trace with frame := trace.frame.discard (offset.natAbs / 4) }))
  | .action => .ok (stepAction context instruction trace)
  | .call => .ok (stepCall context command trace)
  | .jump => return (jumpFlow context command (← context.table.destination command), trace)
  | .jumpZero | .jumpNonzero => do
      let popped := trace.popAt .int
      if (← context.table.state command) = .shortCircuit then
        return (.next, popped)
      else
        return (.branch command, popped)
  | .ret => .ok (.ret, trace)
  | .destruct =>
      match instruction.operand with
      | .destruct size offset keep =>
          .ok (trace.proceed
            ((trace.frame.pushed.destructure? (size / 4) (offset / 4) (keep / 4)).map fun pushed =>
              { trace with frame := { trace.frame with pushed } }))
      | _ => .ok (.stuck, trace)
  | .increment | .decrement =>
      match instruction.offset? with
      | some offset =>
          .ok (.next, trace.note (trace.frame.read (trace.frame.resolve (offset.tdiv 4))) .int)
      | none => .ok (.next, trace)
  | .saveBase => .ok (if globalsOnly then .saveBase else .next, trace)
  | .negate =>
      let type := Ty.simple instruction.type
      .ok (.next, (trace.popAt type).push (.known type))
  | .not | .complement => .ok (.next, (trace.popAt .int).push (.known .int))
  | opcode =>
      if opcode.isBinary then .ok (trace.proceed (trace.binary instruction))
      else .ok (.next, trace)

/-- Record the height and execute an instruction. -/
def step (context : TypingContext) (globalsOnly : Bool) (command : Nat) (trace : TypeTrace) :
    Except Fault (Flow × TypeTrace) :=
  execute context globalsOnly command
    { trace with heights := (command, trace.frame.height) :: trace.heights }

/-- The types of the pushed slots, bottom first. -/
def pushedTypes (trace : TypeTrace) : List Ty :=
  trace.frame.pushed.toList.map fun slot => slot.type?.getD .invalid

/-- The type of a slot, by the evidence for the caller's ones. -/
def typeOf (trace : TypeTrace) : TypeSlot → Ty
  | .known type => type
  | .belowEntry index => (trace.evidence.lookup index).getD .invalid
  | .unknown => .invalid

/-- The type of a parameter slot: by its uses, or else by what was written to it. -/
def paramType (trace : TypeTrace) (index : Nat) : Ty :=
  match trace.evidence.lookup index with
  | some type => type
  | none => ((trace.writes.lookup index).map trace.typeOf).getD .invalid

/-- The result: what was written to the caller's slots behind the `count` parameters. -/
def result (trace : TypeTrace) (count : Nat) : Ty × Option Nat :=
  match ((trace.writes.map (·.1)).filter (count ≤ ·)).max? with
  | some deepest =>
      let members := (List.range (deepest + 1 - count)).reverse.map fun step =>
        ((trace.writes.lookup (count + step)).map trace.typeOf).getD .invalid
      match members with
      | [member] => (member, some count)
      | members => (Ty.ofMembers members, some count)
  | none => (.void, none)

/-- What a walk shows that has reached a return; none when slots are left on the stack. -/
def finish? (trace : TypeTrace) : Option WalkOutcome :=
  if 0 < trace.frame.height then
    none
  else
    let count := (-trace.frame.height).toNat
    let (returnType, returnDepth) := trace.result count
    some {
      slots := (List.range count).map trace.paramType
      groups := trace.groups.filter fun group => group.1 + group.2 ≤ count
      returnType
      returnDepth
      refinements := trace.refinements.reverse
      heights := trace.heights.reverse }

end TypeTrace
end NwScript
