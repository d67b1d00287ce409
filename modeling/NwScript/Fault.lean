import NwScript.Bytecode.Listing
import NwScript.Ty

/-!
# Faults

Every failure is a value that says what went wrong.  `Fault.message` holds the wording; the causes
that come with an open set of reasons carry the reason as a value of its own type.
-/

namespace NwScript

/-- Why a program cannot be read or walked. -/
inductive Defect where
  /-- A subroutine holds no instruction. -/
  | emptySubroutine (sub : Nat)
  /-- A jump refers to a label that stands nowhere. -/
  | unplacedLabel (label : Nat)
  /-- A jump refers to a label behind the last instruction. -/
  | labelPastEnd (label : Nat)
  /-- Positions do not increase. -/
  | outOfOrder (command position previous : Nat)
  /-- A program without subroutines. -/
  | noSubroutines
  /-- A push without its literal. -/
  | noLiteral (position : Nat)
  /-- A copy without offset and size. -/
  | noStackOperand (opcode : Opcode) (position : Nat)
  /-- A stack move without its distance. -/
  | noOffset (position : Nat)
  /-- An extraction or an engine action without its operand fields. -/
  | noOperands (opcode : Opcode) (position : Nat)
  /-- A reason given in words. -/
  | stated (text : String)
  deriving DecidableEq, Repr, Inhabited

namespace Defect

/-- The wording of a defect. -/
def text : Defect → String
  | emptySubroutine sub => "subroutine " ++ toString sub ++ " has no instructions"
  | unplacedLabel label => "label " ++ toString label ++ " was never placed"
  | labelPastEnd label => "label " ++ toString label ++ " is placed past the end"
  | outOfOrder command position previous =>
      "instruction " ++ toString command ++ " at position " ++ toString position ++
        " does not follow position " ++ toString previous
  | noSubroutines => "program has no subroutines"
  | noLiteral position => "CONST at " ++ toString position ++ " without a literal"
  | noStackOperand opcode position =>
      opcode.mnemonic ++ " at " ++ toString position ++ " without a stack operand"
  | noOffset position => "MOVSP at " ++ toString position ++ " without an offset"
  | noOperands opcode position =>
      opcode.mnemonic ++ " at " ++ toString position ++ " without operands"
  | stated text => text

end Defect

/-- Why a control-flow shape is not one that a compiler emits. -/
inductive Obstacle where
  /-- A loop closed before its condition was found. -/
  | loopWithoutCondition
  /-- An else branch reaches past the block around it. -/
  | elseEscapes (target : Nat)
  /-- A loop reaches past the block around it. -/
  | loopEscapes (target : Nat)
  /-- A guarded branch reaches past the block around it. -/
  | branchEscapes (target : Nat)
  /-- A conditional jump leads nowhere. -/
  | conditionalWithoutDestination
  /-- A jump leads nowhere. -/
  | jumpWithoutDestination
  /-- A call leads into the middle of a subroutine or nowhere. -/
  | callWithoutTarget
  /-- A conditional jump leads backwards. -/
  | conditionalBackwards (target : Nat)
  /-- A case dispatch does not compare with a literal. -/
  | dispatchWithoutLiteral
  /-- A case dispatch compares another value than the ones before it. -/
  | dispatchChangesSubject
  /-- A backward jump stands in no loop. -/
  | backwardOutsideLoop (target : Nat)
  /-- A backward jump is neither a latch nor a continuation. -/
  | backward (target : Nat)
  /-- A forward jump fits no statement. -/
  | forward (target : Nat)
  /-- The pop of a switch subject was not found. -/
  | switchWithoutEnd
  /-- A reason given in words. -/
  | stated (text : String)
  deriving DecidableEq, Repr, Inhabited

namespace Obstacle

/-- The wording of an obstacle. -/
def text : Obstacle → String
  | loopWithoutCondition => "loop without a recognisable condition"
  | elseEscapes target =>
      "else branch ending at " ++ toString target ++ " escapes its enclosing block"
  | loopEscapes target => "loop ending at " ++ toString target ++ " escapes its enclosing block"
  | branchEscapes target =>
      "branch ending at " ++ toString target ++ " escapes its enclosing block"
  | conditionalWithoutDestination => "conditional jump without a destination"
  | jumpWithoutDestination => "jump without a destination"
  | callWithoutTarget => "call without a resolved target"
  | conditionalBackwards target => "conditional jump backwards to " ++ toString target
  | dispatchWithoutLiteral => "JNZ on a non-constant comparison"
  | dispatchChangesSubject => "switch dispatch changes its subject"
  | backwardOutsideLoop target => "backward jump to " ++ toString target ++ " outside a loop"
  | backward target => "backward jump to " ++ toString target
  | forward target => "forward jump to " ++ toString target
  | switchWithoutEnd => "switch without a recognisable end"
  | stated text => text

end Obstacle

/-- Why a value cannot be written in source text. -/
inductive Limitation where
  /-- A wide value gathers slots that belong to different values. -/
  | unrelatedSlots (width position : Nat)
  /-- An assignment targets an intermediate value. -/
  | assignedTemporary (position : Nat)
  /-- An increment or decrement targets an intermediate value. -/
  | steppedTemporary (position : Nat)
  /-- An extraction selects no member. -/
  | extraction (position : Nat) (type : Ty)
  /-- A binary operation without operand types. -/
  | untypedOperation (instruction : Instruction) (position : Nat)
  /-- An instruction that is no operator. -/
  | notAnOperator (instruction : Instruction) (position : Nat)
  /-- A reason given in words. -/
  | stated (text : String)
  deriving DecidableEq, Repr, Inhabited

namespace Limitation

/-- The wording of a limitation. -/
def text : Limitation → String
  | unrelatedSlots width position =>
      toString width ++ "-slot value at " ++ toString position ++
        " assembled from unrelated slots"
  | assignedTemporary position =>
      "assignment at " ++ toString position ++ " into an intermediate value"
  | steppedTemporary position =>
      "increment at " ++ toString position ++ " of an intermediate value"
  | extraction position type =>
      "member extraction at " ++ toString position ++ " from a value of type " ++ type.text
  | untypedOperation instruction position =>
      instruction.listing ++ " at " ++ toString position ++ " has no operand types"
  | notAnOperator instruction position =>
      instruction.listing ++ " at " ++ toString position ++ " is not an operator"
  | stated text => text

end Limitation

/-- Which end of an edge names a missing node. -/
inductive EdgeEnd where
  /-- The node that an edge leaves. -/
  | source
  /-- The node that an edge enters. -/
  | target
  deriving DecidableEq, Repr, Inhabited

/-- Why an edge cannot be added to a graph. -/
inductive EdgeDefect where
  /-- An end of the edge is no node of a graph with `count` nodes. -/
  | missingNode (role : EdgeEnd) (node count : Nat)
  /-- A reason given in words. -/
  | stated (text : String)
  deriving DecidableEq, Repr, Inhabited

namespace EdgeDefect

/-- The wording of an edge defect. -/
def text : EdgeDefect → String
  | missingNode role node count =>
      (match role with
        | .source => "source"
        | .target => "target") ++
        " node n" ++ toString node ++ " does not exist in graph with " ++ toString count ++
        " nodes"
  | stated text => text

end EdgeDefect

/-- A failure of the analysis or of the recovery of one subroutine. -/
inductive Fault where
  /-- The program cannot be read or walked. -/
  | malformed (defect : Defect)
  /-- A jump leads between two instructions. -/
  | jumpTarget (position : Nat) (target : Int)
  /-- A byte is no opcode. -/
  | unknownOpcode (byte : UInt8)
  /-- A byte is no type code. -/
  | unknownType (byte : UInt8)
  /-- Nothing is recorded for an instruction. -/
  | notVisited (command : Nat)
  /-- The search for a path met too many branches. -/
  | decisionLimit (sub limit : Nat)
  /-- The stack ran empty. -/
  | stackUnderflow (position : Nat)
  /-- An aggregate would hold another aggregate. -/
  | structNesting (position : Nat)
  /-- Control flow that no compiler emits. -/
  | unclassified (position : Nat) (obstacle : Obstacle)
  /-- A value that source text cannot express. -/
  | unsupported (limitation : Limitation)
  /-- An edge that a graph cannot hold. -/
  | graph (defect : EdgeDefect)
  /-- A copy addresses no slot, so there is no first entry to look at. -/
  | emptyCopy (position : Nat)
  /-- The scan for the end of a switch runs in a circle. -/
  | endlessScan
  deriving DecidableEq, Repr, Inhabited

namespace Fault

/-- One upper-case hexadecimal digit. -/
def hexDigit (value : Nat) : Char :=
  (Nat.digitChar value).toUpper

/-- A byte as two upper-case hexadecimal digits. -/
def hexByte (byte : UInt8) : String :=
  String.ofList [hexDigit (byte.toNat / 16), hexDigit (byte.toNat % 16)]

/-- The wording of a fault. -/
def message : Fault → String
  | malformed defect => "Malformed - " ++ defect.text
  | jumpTarget position target =>
      "Jump at position " ++ toString position ++ " targets " ++ toString target ++
        ", which is not an instruction boundary"
  | unknownOpcode byte => "Unknown opcode 0x" ++ hexByte byte
  | unknownType byte => "Unknown type code 0x" ++ hexByte byte
  | notVisited command =>
      "Instruction " ++ toString command ++ " was never visited by the position resolver"
  | decisionLimit sub limit =>
      "Subroutine " ++ toString sub ++ " exceeded the limit of " ++ toString limit ++
        " queued branch decisions"
  | stackUnderflow position => "Stack underflow at position " ++ toString position
  | structNesting position =>
      "Struct nested beyond one level at position " ++ toString position
  | unclassified position obstacle =>
      "Unclassified control flow at position " ++ toString position ++ ": " ++ obstacle.text
  | unsupported limitation => "Unsupported: " ++ limitation.text
  | graph defect => defect.text
  | emptyCopy position => "Copy of no slots at position " ++ toString position
  | endlessScan => "Scan for the end of a switch never ends"

/-- A fault that breaks off the whole run, not only the recovery of one subroutine. -/
def isFatal : Fault → Bool
  | emptyCopy _ | endlessScan => true
  | _ => false

end Fault

/-- Read an opcode byte. -/
def Opcode.ofByte (byte : UInt8) : Except Fault Opcode :=
  match Opcode.ofByte? byte with
  | some opcode => .ok opcode
  | none => .error (.unknownOpcode byte)

/-- Read a type code byte. -/
def TypeCode.ofByte (byte : UInt8) : Except Fault TypeCode :=
  match TypeCode.ofByte? byte with
  | some code => .ok code
  | none => .error (.unknownType byte)

end NwScript
