import NwScript.Prototype.Decisions
import NwScript.Ty

/-!
# Prototypes

A prototype records what is known about the parameters and the result of one subroutine.  Parameter
slots are numbered from the top of the caller's stack.  Slots that code copies as one value form a
group; the declared parameters are the slots with each group read as an aggregate, lowest slot first.
-/

namespace NwScript

/-- How far the search for a prototype has come. -/
inductive ProtoStatus where
  /-- No path has been tried. -/
  | notStarted
  /-- Paths are being tried. -/
  | inProgress
  /-- A prototype is known. -/
  | done
  /-- The search was given up. -/
  | failed
  deriving DecidableEq, Repr, Inhabited

/-- Marks on a prototype. -/
structure ProtoFlags where
  /-- Every declared parameter is fully typed. -/
  paramsTyped : Bool := false
  /-- The return type is fully typed. -/
  returnTyped : Bool := false
  /-- The prototype was guessed from call sites. -/
  fallback : Bool := false
  /-- The main subroutine. -/
  main : Bool := false
  /-- The globals initializer. -/
  globals : Bool := false
  /-- The subroutine can call itself. -/
  recursive : Bool := false
  deriving DecidableEq, Repr, Inhabited

/-- The prototype of one subroutine. -/
structure Prototype where
  /-- Progress of the search. -/
  status : ProtoStatus := .notStarted
  /-- Marks. -/
  flags : ProtoFlags := {}
  /-- Type of the result. -/
  returnType : Ty := .void
  /-- Slot of the caller's stack, counted from its top, where the result begins. -/
  returnDepth : Option Nat := none
  /-- Type of each parameter slot, the caller's top slot first. -/
  slots : List Ty := []
  /-- First slot and number of slots of each value that was copied as a whole. -/
  groups : List (Nat × Nat) := []
  /-- Decisions of the path that was tried last. -/
  decisions : DecisionQueue := .empty
  deriving DecidableEq, Repr, Inhabited

namespace Prototype

/-- The first group of at least two slots that starts at a slot and ends within `available`. -/
def groupAt? (groups : List (Nat × Nat)) (slot available : Nat) : Option Nat :=
  (groups.find? fun group =>
    group.1 = slot ∧ 1 < group.2 ∧ group.2 ≤ available).map (·.2)

theorem groupAt?_bounds {groups : List (Nat × Nat)} {slot available count : Nat}
    (found : groupAt? groups slot available = some count) : 1 < count ∧ count ≤ available := by
  simp only [groupAt?, Option.map_eq_some_iff] at found
  obtain ⟨group, hit, rfl⟩ := found
  have holds := List.find?_some hit
  simp at holds
  exact holds.2

/-- The declared parameters of the slots that begin with number `slot`.  A group is one aggregate
whose first member lies in its last slot. -/
def paramsFrom (groups : List (Nat × Nat)) (slot : Nat) : List Ty → List Ty
  | [] => []
  | type :: rest =>
      match found : groupAt? groups slot (rest.length + 1) with
      | some count =>
          Ty.ofMembers ((type :: rest).take count).reverse ::
            paramsFrom groups (slot + count) (rest.drop (count - 1))
      | none => type :: paramsFrom groups (slot + 1) rest
termination_by slots => slots.length
decreasing_by
  · simp only [List.length_drop, List.length_cons]
    omega
  · simp

/-- The declared parameters, first to last. -/
def params (proto : Prototype) : List Ty :=
  paramsFrom proto.groups 0 proto.slots

/-- A prototype is known. -/
def isPrototyped (proto : Prototype) : Bool :=
  proto.status = .done

/-- Parameters and result are fully typed. -/
def isFullyTyped (proto : Prototype) : Bool :=
  proto.flags.paramsTyped && proto.flags.returnTyped

/-- Number of parameter slots. -/
def slotCount (proto : Prototype) : Nat :=
  proto.slots.length

/-- Number of result slots. -/
def returnSlots (proto : Prototype) : Nat :=
  proto.returnType.slots

/-- Set the marks on typing from the types. -/
def refreshFlags (proto : Prototype) : Prototype :=
  { proto with
    flags :=
      { proto.flags with
        paramsTyped := proto.params.all Ty.isFullyTyped
        returnTyped := proto.returnType.isFullyTyped } }

/-- Install slots, groups and result, which settles the prototype. -/
def install (proto : Prototype) (slots : List Ty) (groups : List (Nat × Nat)) (returnType : Ty)
    (returnDepth : Option Nat) : Prototype :=
  refreshFlags
    { proto with
      slots := slots
      groups := groups
      returnType := returnType
      returnDepth := returnDepth
      status := .done }

/-- Type an unknown parameter slot; says whether that changed anything. -/
def refineParam (proto : Prototype) (slot : Nat) (type : Ty) : Bool × Prototype :=
  match proto.slots[slot]? with
  | some current =>
      if !current.isKnown && type.isKnown && type.slots = 1 then
        (true, refreshFlags { proto with slots := proto.slots.set slot type })
      else
        (false, proto)
  | none => (false, proto)

/-- Replace a result that is not fully typed by a fully typed one of the same width; says whether
that changed anything. -/
def refineReturn (proto : Prototype) (type : Ty) : Bool × Prototype :=
  if type.slots = proto.returnType.slots && !proto.returnType.isFullyTyped && type.isFullyTyped then
    (true, refreshFlags { proto with returnType := type })
  else
    (false, proto)

/-- First slot and width of consecutive parameters of which the first begins at `slot`. -/
def rangesFrom (slot : Nat) : List Ty → List (Nat × Nat)
  | [] => []
  | type :: types =>
      let width := max type.slots 1
      (slot, width) :: rangesFrom (slot + width) types

/-- First slot and width of each declared parameter. -/
def paramRanges (proto : Prototype) : List (Nat × Nat) :=
  rangesFrom 0 proto.params

end Prototype
end NwScript
