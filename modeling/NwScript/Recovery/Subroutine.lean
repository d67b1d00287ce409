import NwScript.Recovery.Frame
import NwScript.Recovery.Invocations
import NwScript.Recovery.Jumps
import NwScript.Recovery.Operations
import NwScript.Script.Defaults

/-!
# Recovery of a subroutine

The live instructions of a subroutine are executed in order.  Before each of them the scopes that end
there are closed and the loops that begin there are opened.
-/

namespace NwScript
namespace Recover

/-- The slot that an instruction with an offset addresses on the stack. -/
def stackTarget? (recovery : Recovery) (instruction : Instruction) : Option StackEntry := do
  let offset ← instruction.offset?
  let (first, _) ← recovery.stack.range? offset 4
  recovery.stack.at? first

/-- The global that an instruction with an offset addresses. -/
def globalTarget? (recovery : Recovery) (instruction : Instruction) : Option StackEntry := do
  let offset ← instruction.offset?
  (globalEntries recovery offset 4).head?

/-- A return.  Inside a deferred argument it ends nothing; at the end of the subroutine it is written
only if it returns a value. -/
def leaveSubroutine (input : RecoveryInput) (command : Nat) : Recover Unit := do
  let recovery ← get
  if !recovery.inClosure then
    match ← (input.nextLive command : Except Fault _) with
    | some _ => returnPending
    | none =>
        if recovery.pendingReturn.isSome then returnPending
        modify fun recovery => { recovery with finished := true }

/-- The base pointer is saved: the set-up of the globals is complete. -/
def finishGlobals : Recover Unit :=
  modify fun recovery =>
    if recovery.tree.kind = .globals then { recovery with finished := true } else recovery

/-- Execute an instruction that follows one that left `track`. -/
def execute (input : RecoveryInput) (command : Nat) (track : Option StepTrack) :
    Recover Unit := do
  let instruction := input.program.instruction command
  match instruction.opcode with
  | .reserve => reserve instruction.type
  | .const => constant instruction
  | .copyTop => copyTop input command track stackEntries?
  | .copyDown => copyDown instruction stackEntries?
  | .copyTopBase => copyTop input command track globalEntries?
  | .copyDownBase => copyDown instruction globalEntries?
  | .moveStack => popSlots input command
  | .increment => stepVariable .increment (stackTarget? (← get) instruction) track
  | .decrement => stepVariable .decrement (stackTarget? (← get) instruction) track
  | .incrementBase => stepVariable .increment (globalTarget? (← get) instruction) track
  | .decrementBase => stepVariable .decrement (globalTarget? (← get) instruction) track
  | .destruct => destruct instruction
  | .action => action input.catalog instruction
  | .call => call input command
  | .jump => jump input command
  | .jumpZero | .jumpNonzero =>
      if (← (input.table.state command : Except Fault _)) = .shortCircuit then
        onStack (·.drop)
      else
        conditional input command
  | .ret => leaveSubroutine input command
  | .saveBase => finishGlobals
  | opcode =>
      if opcode.isBinary then binary instruction
      else if opcode.isUnary then unary instruction

/-- Close what ends before an instruction, open what begins there and execute it. -/
def visit (input : RecoveryInput) (command : Nat) : Recover Unit := do
  let position := input.program.position command
  modify fun recovery => { recovery with position }
  closeScopes position
  openLoops input command
  let track := (← get).track
  modify fun recovery => { recovery with track := none }
  execute input command track

/-- Visit the live ones of some instructions until nothing follows that belongs to the subroutine. -/
def visitAll (input : RecoveryInput) : List Nat → Recover Unit
  | [] => pure ()
  | command :: commands => do
      if !(← get).finished then
        if !(← (input.table.isDead command : Except Fault _)) then
          visit input command
        visitAll input commands

/-- Close everything and return a value that nothing has returned yet. -/
def complete : Recover Unit := do
  closeScopes Recovery.lastPosition
  if (← get).pendingReturn.isSome then returnPending

end Recover

namespace RecoveryInput

/-- Name the variables and leave out default arguments if the settings say so. -/
def finish (input : RecoveryInput) (tree : ScriptTree) : ScriptTree :=
  let named := { tree with vars := tree.vars.assignNames }
  if input.settings.omitDefaults then named.omitDefaults input.catalog else named

/-- The end state of the recovery of a subroutine. -/
def run (input : RecoveryInput) (sub : Nat) : Except Fault Recovery := do
  let commands := input.program.body sub
  let ((), recovery) ← (do
    Recover.visitAll input commands
    Recover.complete : Recover Unit).run (input.start sub)
  return recovery

/-- Recover the statements of a subroutine. -/
def recover (input : RecoveryInput) (sub : Nat) : Except Fault ScriptTree :=
  (input.run sub).map fun recovery => input.finish recovery.tree

/-- The signature of a subroutine without any statements. -/
def skeleton (input : RecoveryInput) (sub : Nat) : ScriptTree :=
  input.finish (input.start sub).tree

end RecoveryInput
end NwScript
