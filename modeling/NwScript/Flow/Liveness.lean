import NwScript.Flow.Table

/-!
# Liveness

The third pass finds what can be reached from the first instruction.  Control flows from an
instruction to the next one of its subroutine and along every resolved jump, except that a return
ends it and that a plain jump ends it unless it skips the body of a deferred action argument.  Sweeps
over the program repeat until one changes nothing.

Edges of dead jumps are taken out of the table.  A live conditional jump that tests a copy of the top
of the stack and leads right behind a logical operator only skips that operator's right operand.
-/

namespace NwScript
namespace Liveness

/-- Control does not flow on from an instruction with a given predecessor in its subroutine. -/
def endsFlow (opcode : Opcode) (previous : Option Opcode) : Bool :=
  match opcode with
  | .ret => true
  | .jump => previous ≠ some .storeState
  | _ => false

/-- An instruction is reached: control flows on to it, the program starts there, or a live jump leads
there. -/
def isReached (program : Program) (table : FlowTable) (live : Array Bool) (flows : Bool)
    (command : Nat) : Except Fault Bool :=
  if flows ∨ (0 < program.subroutineCount ∧ command = program.entry 0) then
    .ok true
  else do
    let origins ← table.origins command
    return origins.any fun origin => live.getD origin false

/-- Sweep the rest of a subroutine; `flows` says that control flows on to its first instruction. -/
def sweepBody (program : Program) (table : FlowTable) (flows : Bool) (previous : Option Opcode)
    (live : Array Bool) : List Nat → Except Fault (Array Bool)
  | [] => .ok live
  | command :: rest => do
      let reached ← isReached program table live flows command
      let live := if reached then live.setIfInBounds command true else live
      let opcode := program.opcode command
      let flowsOn := live.getD command false && !endsFlow opcode previous
      sweepBody program table flowsOn (some opcode) live rest

/-- Sweep every subroutine in order. -/
def sweep (program : Program) (table : FlowTable) (live : Array Bool) :
    Except Fault (Array Bool) :=
  program.subroutines.foldlM
    (fun live sub => sweepBody program table false none live (program.body sub)) live

/-- Repeat sweeps until one changes nothing, but at most `rounds` times. -/
def settle (program : Program) (table : FlowTable) : Nat → Array Bool → Except Fault (Array Bool)
  | 0, live => .ok live
  | rounds + 1, live => do
      let next ← sweep program table live
      if next = live then return live else settle program table rounds next

/-- The reachable instructions.  Each sweep but the last marks a new one, which bounds their number. -/
def liveSet (program : Program) (table : FlowTable) : Except Fault (Array Bool) :=
  settle program table (program.commandCount + 1) (Array.replicate program.commandCount false)

/-- The logical operator whose right operand a conditional jump may skip. -/
def combiner? : Opcode → Option Opcode
  | .jumpZero => some .logAnd
  | .jumpNonzero => some .logOr
  | _ => none

/-- The instruction before a given one copies the top slot. -/
def followsTopCopy (program : Program) (command : Nat) : Bool :=
  (program.previous? command).any fun previous =>
    program.opcode previous = .copyTop &&
      (program.instruction previous).stackOperand? = some (-4, 4)

/-- A jump that skips the right operand of a logical operator standing right before its
destination. -/
def isShortCircuit (program : Program) (table : FlowTable) (command : Nat) : Except Fault Bool :=
  match combiner? (program.opcode command) with
  | none => .ok false
  | some combiner =>
      if !followsTopCopy program command then
        .ok false
      else do
        match ← table.destination command with
        | none => return false
        | some destination =>
            return (program.previous? destination).any fun before =>
              program.opcode before = combiner && command < before

/-- Record whether one instruction is live, and unlink it if it is a dead jump. -/
def markOne (live : Array Bool) (command : Nat) : FlowPass Unit := do
  if live.getD command false then
    FlowPass.apply (·.setState command .normal)
  else
    match ← FlowPass.ask (·.destination command) with
    | some destination =>
        FlowPass.apply (·.killOrigin destination command)
        FlowPass.apply (·.setState command .deadJump)
    | none => FlowPass.apply (·.setState command .dead)

/-- Record whether a live instruction is a short-circuit jump. -/
def tagOne (program : Program) (live : Array Bool) (command : Nat) : FlowPass Unit := do
  if live.getD command false then
    if ← FlowPass.ask (isShortCircuit program · command) then
      FlowPass.apply (·.setState command .shortCircuit)

/-- Record the liveness of all instructions. -/
def mark (program : Program) : FlowPass Unit := do
  let live ← FlowPass.ask (liveSet program)
  program.commandNumbers.forM (markOne live)
  program.commandNumbers.forM (tagOne program live)

end Liveness
end NwScript
