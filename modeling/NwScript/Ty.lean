import NwScript.Bytecode.TypeCode

/-!
# Value types

A value type is a single type code or an aggregate of member types.  Three floats are the vector
type, so `Ty.ofMembers` builds no other spelling of it.  Slots, flattening and full typing are
structural recursions over nested aggregates.
-/

namespace NwScript

/-- The type of a value. -/
inductive Ty where
  /-- A type named by one code. -/
  | simple (code : TypeCode)
  /-- An aggregate of members in slot order. -/
  | aggregate (members : List Ty)
  deriving Repr, Inhabited

namespace Ty

mutual

/-- Equality of types, threaded through member lists. -/
def decEq : (left right : Ty) → Decidable (left = right)
  | .simple left, .simple right =>
      if same : left = right then .isTrue (by rw [same]) else .isFalse (by simp [same])
  | .simple _, .aggregate _ => .isFalse (by simp)
  | .aggregate _, .simple _ => .isFalse (by simp)
  | .aggregate left, .aggregate right =>
      match decEqMembers left right with
      | .isTrue same => .isTrue (by rw [same])
      | .isFalse differ => .isFalse (by simp [differ])

/-- Equality of member lists. -/
def decEqMembers : (left right : List Ty) → Decidable (left = right)
  | [], [] => .isTrue rfl
  | [], _ :: _ => .isFalse (by simp)
  | _ :: _, [] => .isFalse (by simp)
  | left :: lefts, right :: rights =>
      match decEq left right with
      | .isFalse differ => .isFalse (by simp [differ])
      | .isTrue same =>
          match decEqMembers lefts rights with
          | .isTrue rest => .isTrue (by rw [same, rest])
          | .isFalse differ => .isFalse (by simp [differ])

end

instance : DecidableEq Ty := decEq

/-- No value. -/
abbrev void : Ty := .simple .void

/-- A 32-bit signed integer. -/
abbrev int : Ty := .simple .int

/-- A 32-bit float. -/
abbrev float : Ty := .simple .float

/-- A string reference. -/
abbrev string : Ty := .simple .string

/-- An object identifier. -/
abbrev object : Ty := .simple .object

/-- Three floats. -/
abbrev vector : Ty := .simple .vector

/-- A deferred action argument. -/
abbrev action : Ty := .simple .action

/-- A type that is not determined. -/
abbrev invalid : Ty := .simple .invalid

/-- The aggregate of some members; three floats are a vector. -/
def ofMembers (members : List Ty) : Ty :=
  if members = [float, float, float] then vector else .aggregate members

/-- The code of a type; every aggregate but the vector has the code `aggregate`. -/
def code : Ty → TypeCode
  | .simple code => code
  | .aggregate _ => .aggregate

mutual

/-- Number of stack slots of a value. -/
def slots : Ty → Nat
  | .simple code => code.slots
  | .aggregate members => slotsOf members

/-- Number of stack slots of consecutive members. -/
def slotsOf : List Ty → Nat
  | [] => 0
  | member :: members => member.slots + slotsOf members

end

/-- A type other than the undetermined one. -/
def isKnown (type : Ty) : Bool :=
  type ≠ invalid

/-- A type with members. -/
def isAggregate : Ty → Bool
  | .simple code => code = .vector
  | .aggregate _ => true

/-- Members in slot order, for types that have any. -/
def members? : Ty → Option (List Ty)
  | .simple .vector => some [float, float, float]
  | .simple _ => none
  | .aggregate members => some members

mutual

/-- The one-slot types that a value occupies, in slot order. -/
def flatten : Ty → List Ty
  | .simple .vector => [float, float, float]
  | .simple code => if code.slots = 1 then [.simple code] else []
  | .aggregate members => flattenAll members

/-- The one-slot types that consecutive members occupy. -/
def flattenAll : List Ty → List Ty
  | [] => []
  | member :: members => member.flatten ++ flattenAll members

end

/-- A known type, or an aggregate whose direct members are all known. -/
def isFullyTyped : Ty → Bool
  | .simple code => isKnown (.simple code)
  | .aggregate members => members.all isKnown

/-- The member that starts exactly at a slot of consecutive members, of which the first one has a
given index and first slot. -/
def memberAtSlotFrom? (slot : Nat) (index start : Nat) : List Ty → Option (Nat × Ty)
  | [] => none
  | member :: members =>
      if start = slot then some (index, member)
      else memberAtSlotFrom? slot (index + 1) (start + member.slots) members

/-- The member that starts exactly at a slot of consecutive members, with its index. -/
def memberAtSlot? (slot : Nat) (members : List Ty) : Option (Nat × Ty) :=
  memberAtSlotFrom? slot 0 0 members

mutual

/-- The spelling of a type, with the members of an aggregate written out. -/
def text : Ty → String
  | .simple code => code.name
  | .aggregate members => "struct \x7b" ++ textOf members ++ " \x7d"

/-- The spellings of members, each after a blank and divided by commas. -/
def textOf : List Ty → String
  | [] => ""
  | [member] => " " ++ member.text
  | member :: members => " " ++ member.text ++ "," ++ textOf members

end

theorem slots_invalid : invalid.slots = 0 := rfl

@[simp]
theorem members?_aggregate (members : List Ty) : (aggregate members).members? = some members := rfl

@[simp]
theorem slotsOf_nil : slotsOf [] = 0 := rfl

@[simp]
theorem slotsOf_cons (member : Ty) (members : List Ty) :
    slotsOf (member :: members) = member.slots + slotsOf members := rfl

@[simp]
theorem flattenAll_nil : flattenAll [] = [] := rfl

@[simp]
theorem flattenAll_cons (member : Ty) (members : List Ty) :
    flattenAll (member :: members) = member.flatten ++ flattenAll members := rfl

end Ty
end NwScript
