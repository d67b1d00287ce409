/-!
# Slot stacks

A stack of four-byte slots, held bottom first.  Instructions address slots by negative byte offsets
from the top; `SlotStack.range?` turns such an offset into indices and refuses anything that is not
a whole, non-empty run of existing slots.
-/

namespace NwScript

/-- A stack of slots. -/
structure SlotStack (α : Type) where
  /-- The slots, bottom first. -/
  slots : Array α
  deriving DecidableEq, Repr, Inhabited

namespace SlotStack

variable {α : Type}

/-- The stack without slots. -/
def empty : SlotStack α := ⟨#[]⟩

/-- Number of slots. -/
def height (stack : SlotStack α) : Nat :=
  stack.slots.size

/-- Put a slot on top. -/
def push (stack : SlotStack α) (slot : α) : SlotStack α :=
  ⟨stack.slots.push slot⟩

/-- Put slots on top, the last one uppermost. -/
def pushAll (stack : SlotStack α) (slots : List α) : SlotStack α :=
  slots.foldl push stack

/-- The top slot and the stack below it. -/
def pop? (stack : SlotStack α) : Option (α × SlotStack α) :=
  stack.slots.back?.map fun top => (top, ⟨stack.slots.pop⟩)

/-- The stack without its top slot. -/
def drop (stack : SlotStack α) : SlotStack α :=
  ⟨stack.slots.pop⟩

/-- Keep the lowest slots. -/
def truncate (stack : SlotStack α) (height : Nat) : SlotStack α :=
  ⟨stack.slots.take height⟩

/-- The top `count` slots, bottom first, and the stack below them. -/
def popMany? (stack : SlotStack α) (count : Nat) : Option (List α × SlotStack α) :=
  if count ≤ stack.height then
    let below := stack.height - count
    some ((stack.slots.extract below stack.height).toList, stack.truncate below)
  else
    none

/-- The slot at a depth, where the top has depth one. -/
def peek? (stack : SlotStack α) (depth : Nat) : Option α :=
  if 0 < depth ∧ depth ≤ stack.height then stack.slots[stack.height - depth]? else none

/-- The slot at an index from the bottom. -/
def at? (stack : SlotStack α) (index : Nat) : Option α :=
  stack.slots[index]?

/-- Replace the slot at an index, if it exists. -/
def set (stack : SlotStack α) (index : Nat) (slot : α) : SlotStack α :=
  ⟨stack.slots.setIfInBounds index slot⟩

/-- Indices of the slots at a byte offset from the top: the first one and the one behind the last.
Offsets and sizes must be whole slots, and the run must lie inside the stack. -/
def range? (stack : SlotStack α) (offset : Int) (size : Nat) : Option (Nat × Nat) :=
  if offset < 0 ∧ offset % 4 = 0 ∧ size ≠ 0 ∧ size % 4 = 0 then
    let first := (stack.height : Int) + offset / 4
    let limit := first + (size / 4 : Nat)
    if 0 ≤ first ∧ limit ≤ stack.height then some (first.toNat, limit.toNat) else none
  else
    none

/-- The slots between two indices, bottom first. -/
def slice (stack : SlotStack α) (first limit : Nat) : List α :=
  (stack.slots.extract first limit).toList

/-- Replace the top `count` slots by the `keep` of them that start `offset` above the lowest. -/
def destructure? (stack : SlotStack α) (count offset keep : Nat) : Option (SlotStack α) :=
  if offset + keep ≤ count ∧ count ≤ stack.height then
    let first := stack.height - count
    some ((stack.truncate first).pushAll (stack.slice (first + offset) (first + offset + keep)))
  else
    none

/-- All slots, bottom first. -/
def toList (stack : SlotStack α) : List α :=
  stack.slots.toList

/-- A stack is given by its slots. -/
theorem eq_of_toList {left right : SlotStack α} (same : left.toList = right.toList) : left = right := by
  cases left
  cases right
  exact congrArg mk (Array.toList_inj.mp same)

@[simp]
theorem toList_empty : (empty : SlotStack α).toList = [] := rfl

@[simp]
theorem toList_push (stack : SlotStack α) (slot : α) :
    (stack.push slot).toList = stack.toList ++ [slot] := by
  simp [toList, push]

@[simp]
theorem height_push (stack : SlotStack α) (slot : α) :
    (stack.push slot).height = stack.height + 1 := by
  simp [push, height]

@[simp]
theorem length_toList (stack : SlotStack α) : stack.toList.length = stack.height := by
  simp [toList, height]

@[simp]
theorem toList_truncate (stack : SlotStack α) (height : Nat) :
    (stack.truncate height).toList = stack.toList.take height := by
  simp [toList, truncate]

@[simp]
theorem toList_drop (stack : SlotStack α) : stack.drop.toList = stack.toList.dropLast := by
  simp [toList, drop]

@[simp]
theorem toList_pushAll (stack : SlotStack α) (slots : List α) :
    (stack.pushAll slots).toList = stack.toList ++ slots := by
  induction slots generalizing stack with
  | nil => simp [pushAll]
  | cons slot slots ih =>
      have step : stack.pushAll (slot :: slots) = (stack.push slot).pushAll slots := rfl
      rw [step, ih]
      simp

end SlotStack
end NwScript
