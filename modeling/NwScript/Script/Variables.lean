import NwScript.Script.Node
import NwScript.Ty

/-!
# Variables of a subroutine

Every named slot and every intermediate value is a variable.  Aggregates list their members, and each
member points back at its aggregate.  Names are given at the end, in the order of creation: the
spelling of the type, the class of the variable and a count.
-/

namespace NwScript

/-- Storage class of a variable. -/
inductive VarKind where
  /-- Declared in the body. -/
  | localVar
  /-- A parameter. -/
  | param
  /-- A global of the program. -/
  | global
  /-- The caller's slot for the result. -/
  | ret
  /-- An intermediate value, which is never declared. -/
  | temp
  deriving DecidableEq, Repr, Inhabited

/-- A variable. -/
structure Variable where
  /-- Storage class. -/
  kind : VarKind
  /-- Type of the value. -/
  type : Ty
  /-- Source name. -/
  name : Option String := none
  /-- The aggregate that holds this member. -/
  parent : Option VarId := none
  /-- Members of an aggregate in slot order. -/
  members : List VarId := []
  /-- The expression that an intermediate value stands for. -/
  value : Option NodeId := none
  /-- The declaration of a local. -/
  declaration : Option NodeId := none
  /-- The value was moved elsewhere, so that popping it evaluates nothing. -/
  consumed : Bool := false
  deriving DecidableEq, Repr, Inhabited

namespace Variable

/-- An intermediate value. -/
def temporary (type : Ty) (value : NodeId) : Variable :=
  { kind := .temp, type, value := some value }

/-- A variable with members. -/
def isAggregate (entry : Variable) : Bool :=
  !entry.members.isEmpty

end Variable

/-- The variables of a subroutine by number. -/
structure VarTable where
  /-- The variables in order of creation. -/
  vars : Array Variable
  deriving DecidableEq, Repr, Inhabited

namespace VarTable

/-- The table without variables. -/
def empty : VarTable := ⟨#[]⟩

/-- Number of variables. -/
def size (table : VarTable) : Nat :=
  table.vars.size

/-- A variable by number. -/
def get? (table : VarTable) (id : VarId) : Option Variable :=
  table.vars[id]?

/-- Add a variable; its number is the previous size. -/
def add (table : VarTable) (entry : Variable) : VarTable × VarId :=
  (⟨table.vars.push entry⟩, table.size)

/-- Change a variable. -/
def modify (table : VarTable) (id : VarId) (change : Variable → Variable) : VarTable :=
  ⟨table.vars.modify id change⟩

/-- Storage class of a variable; an unknown one counts as intermediate. -/
def kind (table : VarTable) (id : VarId) : VarKind :=
  match table.get? id with
  | some entry => entry.kind
  | none => .temp

/-- Type of a variable; undetermined for an unknown one. -/
def type (table : VarTable) (id : VarId) : Ty :=
  match table.get? id with
  | some entry => entry.type
  | none => .invalid

/-- The aggregate that holds a variable. -/
def parent? (table : VarTable) (id : VarId) : Option VarId :=
  (table.get? id).bind (·.parent)

/-- The declaration of a variable. -/
def declaration? (table : VarTable) (id : VarId) : Option NodeId :=
  (table.get? id).bind (·.declaration)

/-- Members of a variable. -/
def members (table : VarTable) (id : VarId) : List VarId :=
  ((table.get? id).map (·.members)).getD []

/-- Follow the links to enclosing aggregates at most `steps` times. -/
def rootFrom (table : VarTable) : (steps : Nat) → VarId → VarId
  | 0, id => id
  | steps + 1, id =>
      match table.parent? id with
      | some parent => rootFrom table steps parent
      | none => id

/-- The outermost aggregate that holds a variable, or the variable itself.  Links lead to variables
created later, so there are fewer of them than variables. -/
def root (table : VarTable) (id : VarId) : VarId :=
  table.rootFrom table.size id

/-- Add an aggregate of the class of its first member and link the members to it. -/
def aggregate (table : VarTable) (members : List VarId) : VarTable × VarId :=
  let types := members.filterMap fun member => (table.get? member).map (·.type)
  let kind := match members with
    | first :: _ => table.kind first
    | [] => .localVar
  let (table, id) := table.add { kind, type := .ofMembers types, members }
  (members.foldl
    (fun table member => table.modify member fun entry => { entry with parent := some id })
    table, id)

/-- Every one of some variables exists and is free to join an aggregate. -/
def allFree (table : VarTable) (members : List VarId) : Bool :=
  members.all fun member => (table.get? member).any fun entry => entry.parent.isNone

/-- Add an aggregate of free members; none when some member is not free. -/
def group (table : VarTable) (members : List VarId) : VarTable × Option VarId :=
  if table.allFree members then
    let (table, id) := table.aggregate members
    (table, some id)
  else
    (table, none)

/-- Source name of a member of a type. -/
def memberName (type : Ty) (index : Nat) : String :=
  let numbered := "field" ++ toString (index + 1)
  if type = .vector then ["x", "y", "z"].getD index numbered else numbered

/-- The part of a name that spells the type. -/
def typePart (type : Ty) : String :=
  match type.code with
  | .vector => "vec"
  | .aggregate => "struct"
  | code => code.name

/-- The part of a name that spells the class. -/
def kindPart : VarKind → String
  | .param => "Param"
  | .global => "Global"
  | _ => ""

/-- How often each spelling of type and class was used so far, and the number of parameters. -/
structure Naming where
  /-- Uses by type and class. -/
  counts : List ((String × String) × Nat) := []
  /-- Number of parameters. -/
  params : Nat := 0
  deriving DecidableEq, Repr, Inhabited

namespace Naming

/-- The number of the next variable with some spelling. -/
def bump (naming : Naming) (key : String × String) : Nat × Naming :=
  let number := (naming.counts.lookup key).getD 0 + 1
  (number, { naming with counts := (key, number) :: naming.counts.filter (·.1 ≠ key) })

/-- Name a variable that is neither intermediate, nor a result slot, nor a member.  A parameter whose
type is not determined is named by its position. -/
def name (naming : Naming) (entry : Variable) : Variable × Naming :=
  if entry.kind = .temp ∨ entry.kind = .ret ∨ entry.parent.isSome then
    (entry, naming)
  else
    let position := naming.params
    let naming :=
      if entry.kind = .param then { naming with params := position + 1 } else naming
    if entry.kind = .param ∧ !entry.type.isFullyTyped then
      ({ entry with name := some ("__unresolved_param" ++ toString position) }, naming)
    else
      let key := (typePart entry.type, kindPart entry.kind)
      let (number, naming) := naming.bump key
      ({ entry with name := some (key.1 ++ key.2 ++ toString number) }, naming)

/-- Name variables in order. -/
def nameAll (naming : Naming) : List Variable → List Variable
  | [] => []
  | entry :: rest =>
      let (named, naming) := naming.name entry
      named :: naming.nameAll rest

end Naming

/-- Name every variable that source text can refer to by itself. -/
def assignNames (table : VarTable) : VarTable :=
  ⟨(Naming.nameAll {} table.vars.toList).toArray⟩

@[simp]
theorem add_snd (table : VarTable) (entry : Variable) : (table.add entry).2 = table.size := rfl

@[simp]
theorem size_add (table : VarTable) (entry : Variable) :
    (table.add entry).1.size = table.size + 1 := by
  simp [add, size]

@[simp]
theorem get?_add_self (table : VarTable) (entry : Variable) :
    (table.add entry).1.get? table.size = some entry := by
  simp [add, get?, size]

/-- Adding a variable leaves the others as they are. -/
theorem get?_add_of_lt {table : VarTable} {id : VarId} (entry : Variable) (old : id < table.size) :
    (table.add entry).1.get? id = table.get? id := by
  have bound : id < table.vars.size := old
  simp [add, get?, Array.getElem?_push_lt, bound]

@[simp]
theorem size_modify (table : VarTable) (id : VarId) (change : Variable → Variable) :
    (table.modify id change).size = table.size := by
  simp [modify, size]

/-- Grouping variables that are not all free changes nothing. -/
theorem group_of_not_free {table : VarTable} {members : List VarId}
    (taken : table.allFree members = false) : table.group members = (table, none) := by
  simp [group, taken]

end VarTable
end NwScript
