import NwScript.Calls.CallGraph

/-!
# Program layout

A compiled script begins with code that no author wrote: an entry stub that only calls the main
subroutine, or an initializer that sets up the globals, saves the base pointer and then calls it.
-/

namespace NwScript

/-- The subroutines with a special role. -/
structure Layout where
  /-- The first subroutine. -/
  entry : Nat
  /-- An entry that does nothing but call the main subroutine. -/
  stub : Option Nat
  /-- The subroutine that sets up the globals. -/
  globals : Option Nat
  /-- The instruction that ends the set-up of the globals. -/
  saveBase : Option Nat
  /-- The main subroutine. -/
  main : Nat
  deriving DecidableEq, Repr, Inhabited

namespace Layout

/-- A subroutine that is printed as a function. -/
def isFunction (layout : Layout) (sub : Nat) : Bool :=
  some sub ≠ layout.stub && some sub ≠ layout.globals

/-- The first live instruction that saves the base pointer. -/
def findSaveBase (program : Program) (table : FlowTable) : List Nat → Except Fault (Option Nat)
  | [] => .ok none
  | command :: rest =>
      if program.opcode command = .saveBase then do
        if ← table.isDead command then
          findSaveBase program table rest
        else
          return some command
      else
        findSaveBase program table rest

/-- The callee of the first call, provided that the live code does nothing but reserve, pop, call
once and return. -/
def forwardedCall (program : Program) (table : FlowTable) (calls : CallGraph)
    (found : Option Nat) : List Nat → Except Fault (Option Nat)
  | [] => .ok found
  | command :: rest => do
      if ← table.isDead command then
        forwardedCall program table calls found rest
      else
        match program.opcode command with
        | .call =>
            if found.isNone then
              forwardedCall program table calls (calls.target? command) rest
            else
              return none
        | .reserve | .moveStack | .ret | .nop => forwardedCall program table calls found rest
        | _ => return none

/-- The callee of the first live call behind a position. -/
def callAfter (program : Program) (table : FlowTable) (calls : CallGraph) (position : Nat) :
    List Nat → Except Fault (Option Nat)
  | [] => .ok none
  | command :: rest =>
      if position < program.position command ∧ program.opcode command = .call then do
        if ← table.isDead command then
          callAfter program table calls position rest
        else
          return calls.target? command
      else
        callAfter program table calls position rest

/-- Find the roles in a program with known liveness and calls. -/
def detect (program : Program) (table : FlowTable) (calls : CallGraph) : Except Fault Layout := do
  if program.subroutineCount = 0 then
    throw (.malformed .noSubroutines)
  let saveBase ← findSaveBase program table program.commandNumbers
  let globals := saveBase.map program.owner
  let forwarded ← forwardedCall program table calls none (program.body 0)
  let forwarded := if globals = some 0 then none else forwarded
  let afterGlobals ← match saveBase with
    | some command =>
        callAfter program table calls (program.position command)
          (program.body (program.owner command))
    | none => pure none
  return {
    entry := 0
    stub := forwarded.map fun _ => 0
    globals
    saveBase
    main := afterGlobals.getD (forwarded.getD 0) }

end Layout
end NwScript
