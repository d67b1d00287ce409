import NwScript.SlotStack
import NwScript.Ty

/-!
# Type frames

A type frame is the stack that one subroutine sees.  It is bottomless: the caller's slots lie below
the entry and are numbered from the top down.  Slots pushed by the subroutine are stored; a pop that
finds none consumes the next of the caller's slots.
-/

namespace NwScript

/-- What is known about the type of a slot. -/
inductive TypeSlot where
  /-- A value of a type. -/
  | known (type : Ty)
  /-- The caller's slot with a number. -/
  | belowEntry (index : Nat)
  /-- Nothing. -/
  | unknown
  deriving DecidableEq, Repr, Inhabited

namespace TypeSlot

/-- The type of a slot, when it holds a value of one. -/
def type? : TypeSlot → Option Ty
  | known type => some type
  | _ => none

/-- A slot whose type is determined. -/
def isSettled : TypeSlot → Bool
  | known type => type.isKnown
  | _ => false

end TypeSlot

/-- The stack of a subroutine. -/
structure TypeFrame where
  /-- Slots pushed by the subroutine. -/
  pushed : SlotStack TypeSlot := .empty
  /-- Number of the caller's slots that were consumed. -/
  below : Nat := 0
  deriving DecidableEq, Repr, Inhabited

namespace TypeFrame

/-- Where a slot lies. -/
inductive Address where
  /-- Among the pushed slots, counted from the lowest. -/
  | stored (index : Nat)
  /-- Among the caller's slots, counted from the top. -/
  | callers (index : Nat)
  deriving DecidableEq, Repr, Inhabited

/-- Height above the entry; negative when more slots were consumed than pushed. -/
def height (frame : TypeFrame) : Int :=
  (frame.pushed.height : Int) - frame.below

/-- Push a slot. -/
def push (frame : TypeFrame) (slot : TypeSlot) : TypeFrame :=
  { frame with pushed := frame.pushed.push slot }

/-- Push the slots of a value. -/
def pushType (frame : TypeFrame) (type : Ty) : TypeFrame :=
  type.flatten.foldl (fun frame member => frame.push (.known member)) frame

/-- Pop a slot, from the caller if need be. -/
def pop (frame : TypeFrame) : TypeSlot × TypeFrame :=
  match frame.pushed.pop? with
  | some (slot, rest) => (slot, { frame with pushed := rest })
  | none => (.belowEntry frame.below, { frame with below := frame.below + 1 })

/-- Pop a number of slots without looking at them. -/
def discard (frame : TypeFrame) (count : Nat) : TypeFrame where
  pushed := frame.pushed.truncate (frame.pushed.height - count)
  below := frame.below + (count - frame.pushed.height)

/-- The slot at an offset from the top, in slots. -/
def resolve (frame : TypeFrame) (offset : Int) : Address :=
  let absolute := frame.height + offset
  if -(frame.below : Int) ≤ absolute then
    .stored (absolute + frame.below).toNat
  else
    .callers (-absolute - 1).toNat

/-- Content of a slot; nothing is known above the top. -/
def read (frame : TypeFrame) : Address → TypeSlot
  | .stored index => (frame.pushed.at? index).getD .unknown
  | .callers index => .belowEntry index

/-- Replace a pushed slot unless its type is settled. -/
def settle (frame : TypeFrame) (index : Nat) (slot : TypeSlot) : TypeFrame :=
  match frame.pushed.at? index with
  | some current =>
      if current.isSettled then frame
      else { frame with pushed := frame.pushed.set index slot }
  | none => frame

end TypeFrame
end NwScript
