import NwScript.Analysis
import NwScript.Recovery.Subroutine
import NwScript.Script.Cleanup

/-!
# Source programs

A program is decompiled by analyzing it and recovering every subroutine but an entry stub.  A
subroutine that cannot be recovered keeps its prototype and the fault; the others are not affected.
Aggregates that occur more than once anywhere in the program share a definition.
-/

namespace NwScript

/-- A subroutine and what became of its statements. -/
structure SourceRoutine where
  /-- The subroutine. -/
  sub : Nat
  /-- Its name. -/
  name : String
  /-- Result type, name and parameters as source text. -/
  prototype : String
  /-- The statements, or why they could not be recovered. -/
  outcome : Except Fault ScriptTree
  deriving Inhabited

namespace SourceRoutine

/-- The statements, if they could be recovered. -/
def tree? (routine : SourceRoutine) : Option ScriptTree :=
  routine.outcome.toOption

/-- Why the statements could not be recovered. -/
def fault? (routine : SourceRoutine) : Option Fault :=
  match routine.outcome with
  | .ok _ => none
  | .error fault => some fault

/-- The statements could not be recovered. -/
def isFailed (routine : SourceRoutine) : Bool :=
  routine.fault?.isSome

/-- Number of stand-ins; a failure counts as one. -/
def placeholderCount (routine : SourceRoutine) : Nat :=
  routine.tree?.elim 1 (·.placeholderCount)

/-- The comment in place of statements that could not be recovered. -/
def failureComment (fault : Fault) : String :=
  "/* __decompile_failed: " ++ fault.message ++ " */\n"

/-- Source text of a function. -/
def text (indent : String) (routine : SourceRoutine) : String :=
  match routine.outcome with
  | .ok tree => tree.text
  | .error fault =>
      routine.prototype ++ " \x7b\n" ++ indent ++ failureComment fault ++ "\x7d\n"

/-- Source text of the declarations of the globals. -/
def globalsText (routine : SourceRoutine) : String :=
  match routine.outcome with
  | .ok tree => tree.text
  | .error fault => failureComment fault

end SourceRoutine

/-- The source text of a program in parts. -/
structure SourceProgram where
  /-- The functions in program order. -/
  functions : List SourceRoutine
  /-- The declarations of the globals. -/
  globals : Option SourceRoutine
  /-- The aggregates of the program. -/
  structs : StructTable
  /-- The main subroutine. -/
  main : Nat
  /-- One level of indentation. -/
  indent : String
  deriving Inhabited

namespace SourceProgram

/-- The functions and the declarations of the globals. -/
def routines (program : SourceProgram) : List SourceRoutine :=
  program.functions ++ program.globals.toList

/-- A function by subroutine. -/
def function? (program : SourceProgram) (sub : Nat) : Option SourceRoutine :=
  program.functions.find? (·.sub = sub)

/-- A function by name; the first one of several. -/
def byName? (program : SourceProgram) (name : String) : Option SourceRoutine :=
  program.functions.find? (·.name = name)

/-- Number of routines that could not be recovered. -/
def failureCount (program : SourceProgram) : Nat :=
  program.routines.countP SourceRoutine.isFailed

/-- Number of stand-ins in the program. -/
def placeholderCount (program : SourceProgram) : Nat :=
  (program.routines.map SourceRoutine.placeholderCount).foldr (· + ·) 0

/-- The definition of an aggregate. -/
def definitionText (program : SourceProgram) (name : String) (members : List Ty) : String :=
  let fields := members.mapIdx fun index member =>
    program.indent ++ program.structs.spell member ++ " field" ++ toString (index + 1) ++ ";\n"
  "struct " ++ name ++ " \x7b\n" ++ String.join fields ++ "\x7d;\n"

/-- The definitions of the aggregates that are named. -/
def definitionsText (program : SourceProgram) : String :=
  String.join (program.structs.definitions.map fun entry =>
    program.definitionText entry.1 entry.2)

/-- The prototypes of all functions but the main one. -/
def prototypesText (program : SourceProgram) : String :=
  String.join ((program.functions.filter (·.sub ≠ program.main)).map fun routine =>
    routine.prototype ++ ";\n")

/-- The functions, with a blank line between them. -/
def functionsText (program : SourceProgram) : String :=
  "\n".intercalate (program.functions.map (SourceRoutine.text program.indent))

/-- Source text of the program: its parts that are not empty, with blank lines between them. -/
def text (program : SourceProgram) : String :=
  let globals := program.globals.map SourceRoutine.globalsText
  let parts := program.definitionsText :: globals.toList ++
    [program.prototypesText, program.functionsText]
  "\n".intercalate (parts.filter (· ≠ ""))

end SourceProgram

namespace ScriptTree

/-- Types of the result, the parameters and the declared variables, in this order. -/
def declaredTypes (tree : ScriptTree) : List Ty :=
  let declared := tree.walk.filterMap fun id =>
    match tree.node id with
    | .declaration var _ _ => some var
    | _ => none
  tree.signature.returnType ::
    ((tree.signature.params ++ declared).filterMap tree.vars.get?).map (·.type)

end ScriptTree

namespace Analysis

/-- Names of some subroutines, where `count` is the number of those before that were numbered. -/
def namesFrom (analysis : Analysis) (count : Nat) : List Nat → List String
  | [] => []
  | sub :: subs =>
      let layout := analysis.layout
      if sub = layout.main then
        let returnType := (analysis.inference.protos[sub]?.map (·.returnType)).getD .void
        (if returnType = .int then "StartingConditional" else "main") ::
          namesFrom analysis count subs
      else if some sub = layout.globals then
        "__globals" :: namesFrom analysis count subs
      else if some sub = layout.stub then
        "__entry" :: namesFrom analysis count subs
      else
        ("sub" ++ toString (count + 1)) :: namesFrom analysis (count + 1) subs

/-- Names of all subroutines.  The roles have names of their own, and the other subroutines are
numbered. -/
def names (analysis : Analysis) (program : Program) : List String :=
  analysis.namesFrom 0 program.subroutines

/-- What the recovery of the subroutines reads. -/
def recoveryInput (analysis : Analysis) (program : Program) (catalog : ActionCatalog)
    (settings : Settings) (names : List String) : RecoveryInput where
  program := program
  table := analysis.table
  calls := analysis.calls
  catalog := catalog
  protos := analysis.inference.protos
  globals := analysis.inference.globals
  layout := analysis.layout
  names := names
  settings := settings

end Analysis

namespace RecoveryInput

/-- The tidy statements of a subroutine, or why they could not be recovered; a fatal fault ends the
run. -/
def attempt (input : RecoveryInput) (sub : Nat) : Except Fault (Nat × Except Fault ScriptTree) :=
  match input.recover sub with
  | .ok tree => .ok (sub, .ok tree.cleanup.1)
  | .error fault => if fault.isFatal then .error fault else .ok (sub, .error fault)

/-- A routine with the names of shared aggregates. -/
def routine (input : RecoveryInput) (structs : StructTable)
    (attempted : Nat × Except Fault ScriptTree) : SourceRoutine :=
  let outcome := attempted.2.map fun tree => { tree with structs }
  let shown := match outcome with
    | .ok tree => tree
    | .error _ => { input.skeleton attempted.1 with structs }
  { sub := attempted.1
    name := input.name attempted.1
    prototype := shown.prototype
    outcome }

end RecoveryInput

namespace Program

/-- Decompile a program.  Only a malformed program fails as a whole. -/
def decompile (program : Program) (catalog : ActionCatalog) (settings : Settings) :
    Except Fault SourceProgram := do
  let analysis ← Analysis.ofProgram program catalog settings
  let input := analysis.recoveryInput program catalog settings (analysis.names program)
  let layout := analysis.layout
  let attempted ← (program.subroutines.filter fun sub => some sub ≠ layout.stub).mapM input.attempt
  let trees := attempted.filterMap (·.2.toOption)
  let structs := (trees.flatMap ScriptTree.declaredTypes).foldl StructTable.register .empty
  let routines := attempted.map (input.routine structs)
  return {
    functions := routines.filter fun routine => layout.isFunction routine.sub
    globals := routines.find? fun routine => some routine.sub = layout.globals
    structs
    main := layout.main
    indent := settings.indent }

end Program
end NwScript
