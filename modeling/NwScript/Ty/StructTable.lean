import NwScript.Ty

/-!
# Naming of aggregate types

A table counts how often each aggregate is referred to.  An aggregate gets the next free name when
it is met for the second time and keeps it; members are counted before the aggregate that holds
them, so a named aggregate never comes before a named member.
-/

namespace NwScript

/-- Reference counts and names of aggregates. -/
structure StructTable where
  /-- Members and reference count of each registered aggregate, in order of first reference. -/
  counts : List (List Ty × Nat)
  /-- Members of each named aggregate; the `k`-th one is named `structtypek`. -/
  named : List (List Ty)
  deriving Inhabited

namespace StructTable

/-- The table before any registration. -/
def empty : StructTable := ⟨[], []⟩

/-- Reference count of an aggregate given by its members. -/
def countOf (table : StructTable) (members : List Ty) : Nat :=
  (table.counts.lookup members).getD 0

/-- Add one reference; the second one appends a name. -/
def count (table : StructTable) (members : List Ty) : StructTable :=
  match table.countOf members with
  | 0 => { table with counts := table.counts ++ [(members, 1)] }
  | references + 1 =>
      { counts := table.counts.map fun entry =>
          if entry.1 = members then (members, references + 2) else entry
        named := if references = 0 then table.named ++ [members] else table.named }

mutual

/-- Count every aggregate of a type, innermost first. -/
def register (table : StructTable) : Ty → StructTable
  | .simple _ => table
  | .aggregate members => (table.registerAll members).count members

/-- Count every aggregate of some types, from first to last. -/
def registerAll (table : StructTable) : List Ty → StructTable
  | [] => table
  | member :: members => (table.register member).registerAll members

end

/-- The name with a given number, counted from one. -/
def nameOfNumber (number : Nat) : String :=
  "structtype" ++ toString number

/-- The name of an aggregate that has been referred to at least twice. -/
def name? (table : StructTable) : Ty → Option String
  | .simple _ => none
  | .aggregate members =>
      (table.named.idxOf? members).map fun index => nameOfNumber (index + 1)

/-- How often an aggregate has been registered, alone or inside another one. -/
def references (table : StructTable) : Ty → Nat
  | .simple _ => 0
  | .aggregate members => table.countOf members

/-- Names and members of the named aggregates, in the order of their numbers. -/
def definitions (table : StructTable) : List (String × List Ty) :=
  table.named.mapIdx fun index members => (nameOfNumber (index + 1), members)

/-- The spelling of a type: a named aggregate by name, any other type written out. -/
def spell (table : StructTable) (type : Ty) : String :=
  match table.name? type with
  | some name => "struct " ++ name
  | none => type.text

end StructTable
end NwScript
