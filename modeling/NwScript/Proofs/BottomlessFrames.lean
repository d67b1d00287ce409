import Mathlib.Logic.Function.Basic
import NwScript.Proofs.DeclaredHeights

/-!
# Bottomless frames

A frame keeps the slots that were pushed and counts those of the caller that were consumed.  Both move on
their own, and a position that was the caller's becomes a stored one when it is pushed again.  Against this
stands a stack with a cell at every position, above and below the entry, of which nothing is ever dropped.
Whatever is done to both, they answer alike.
-/

namespace NwScript

/-- A stack without a bottom.  Positions are counted from the entry, below which they are negative. -/
structure CellStack where
  /-- The position above the top. -/
  height : Int
  /-- The lowest height so far; the cells below were never taken off. -/
  lowest : Int
  /-- What lies at each position. -/
  cells : Int → TypeSlot

namespace CellStack

/-- The stack at the entry: the caller's slots, and nothing above them. -/
def entry : CellStack where
  height := 0
  lowest := 0
  cells := fun position => if position < 0 then .belowEntry (-position - 1).toNat else .unknown

/-- Put a slot on top. -/
def push (stack : CellStack) (slot : TypeSlot) : CellStack :=
  { stack with height := stack.height + 1, cells := Function.update stack.cells stack.height slot }

/-- Take the top slot off. -/
def pop (stack : CellStack) : TypeSlot × CellStack :=
  (stack.cells (stack.height - 1),
    { stack with height := stack.height - 1, lowest := min stack.lowest (stack.height - 1) })

/-- Take a number of slots off. -/
def discard (stack : CellStack) : Nat → CellStack
  | 0 => stack
  | count + 1 => stack.pop.2.discard count

/-- What lies at a position; nothing is known above the top. -/
def read (stack : CellStack) (position : Int) : TypeSlot :=
  if position < stack.height then stack.cells position else .unknown

/-- Replace what lies at a position, unless it is above the top or was the caller's ever since. -/
def write (stack : CellStack) (position : Int) (slot : TypeSlot) : CellStack :=
  if stack.lowest ≤ position ∧ position < stack.height then
    { stack with cells := Function.update stack.cells position slot }
  else
    stack

/-- Replace what lies at a position unless its type is settled. -/
def settle (stack : CellStack) (position : Int) (slot : TypeSlot) : CellStack :=
  if (stack.read position).isSettled then stack else stack.write position slot

end CellStack

namespace TypeFrame

/-- What can be done to a frame.  Offsets are counted in bytes from the top. -/
inductive Operation where
  /-- Push a slot. -/
  | push (slot : TypeSlot)
  /-- Push the slots of a value. -/
  | pushType (type : Ty)
  /-- Pop a slot. -/
  | pop
  /-- Pop some slots without looking at them. -/
  | discard (count : Nat)
  /-- Replace a pushed slot. -/
  | write (offset : Int) (slot : TypeSlot)
  /-- Replace a pushed slot unless its type is settled. -/
  | settle (offset : Int) (slot : TypeSlot)
  /-- Read a slot. -/
  | read (offset : Int)

/-- Replace a pushed slot; the caller's slots are left alone. -/
def write (frame : TypeFrame) (slot : TypeSlot) : Address → TypeFrame
  | .stored index => { frame with pushed := frame.pushed.set index slot }
  | .callers _ => frame

/-- Replace a pushed slot unless its type is settled; the caller's slots are left alone. -/
def settleAt (frame : TypeFrame) (slot : TypeSlot) : Address → TypeFrame
  | .stored index => frame.settle index slot
  | .callers _ => frame

/-- Do something to a frame: the slot that it answers with, and the frame behind it. -/
def perform (frame : TypeFrame) : Operation → Option TypeSlot × TypeFrame
  | .push slot => (none, frame.push slot)
  | .pushType type => (none, frame.pushType type)
  | .pop => (some frame.pop.1, frame.pop.2)
  | .discard count => (none, frame.discard count)
  | .write offset slot => (none, frame.write slot (frame.resolve (offset.tdiv 4)))
  | .settle offset slot => (none, frame.settleAt slot (frame.resolve (offset.tdiv 4)))
  | .read offset => (some (frame.read (frame.resolve (offset.tdiv 4))), frame)

/-- The answers to some operations, each with the height behind it, and the frame behind them all. -/
def run (frame : TypeFrame) : List Operation → List (Option TypeSlot × Int) × TypeFrame
  | [] => ([], frame)
  | operation :: operations =>
      let (answer, next) := frame.perform operation
      let (answers, last) := next.run operations
      ((answer, next.height) :: answers, last)

end TypeFrame

namespace CellStack

open TypeFrame (Operation)

/-- Do something to a stack: the slot that it answers with, and the stack behind it. -/
def perform (stack : CellStack) : Operation → Option TypeSlot × CellStack
  | .push slot => (none, stack.push slot)
  | .pushType type => (none, (type.flatten.map .known).foldl push stack)
  | .pop => (some stack.pop.1, stack.pop.2)
  | .discard count => (none, stack.discard count)
  | .write offset slot => (none, stack.write (stack.height + offset.tdiv 4) slot)
  | .settle offset slot => (none, stack.settle (stack.height + offset.tdiv 4) slot)
  | .read offset => (some (stack.read (stack.height + offset.tdiv 4)), stack)

/-- The answers to some operations, each with the height behind it, and the stack behind them all. -/
def run (stack : CellStack) : List Operation → List (Option TypeSlot × Int) × CellStack
  | [] => ([], stack)
  | operation :: operations =>
      let (answer, next) := stack.perform operation
      let (answers, last) := next.run operations
      ((answer, next.height) :: answers, last)

end CellStack

/-! ## Slots at indices -/

namespace SlotStack

variable {α : Type} (stack : SlotStack α)

theorem at?_eq_none {index : Nat} (above : stack.height ≤ index) : stack.at? index = none :=
  Array.getElem?_eq_none above

theorem at?_push (slot : α) (index : Nat) :
    (stack.push slot).at? index = if index = stack.height then some slot else stack.at? index :=
  Array.getElem?_push

theorem at?_set {index : Nat} (inside : index < stack.height) (slot : α) (other : Nat) :
    (stack.set index slot).at? other = if index = other then some slot else stack.at? other := by
  have bound : index < stack.slots.size := inside
  rw [at?, set, Array.getElem?_setIfInBounds, if_pos bound]
  rfl

/-- Nothing is replaced above the top. -/
theorem set_of_le {index : Nat} (above : stack.height ≤ index) (slot : α) :
    stack.set index slot = stack := by
  have bound : stack.slots.size ≤ index := above
  rw [set, Array.setIfInBounds, dif_neg (Nat.not_lt.mpr bound)]

@[simp]
theorem height_drop : stack.drop.height = stack.height - 1 :=
  Array.size_pop

theorem at?_drop {index : Nat} (kept : index < stack.height - 1) :
    stack.drop.at? index = stack.at? index := by
  have bound : index < stack.slots.size - 1 := kept
  rw [at?, drop, Array.getElem?_pop, if_pos bound]
  rfl

theorem pop?_of_empty (empty : stack.height = 0) : stack.pop? = none := by
  have none : stack.slots = #[] := Array.eq_empty_of_size_eq_zero empty
  rw [pop?, none]
  rfl

theorem pop?_of_at? {slot : α} (top : stack.at? (stack.height - 1) = some slot) :
    stack.pop? = some (slot, stack.drop) := by
  have last : stack.slots.back? = some slot := by
    rw [Array.back?_eq_getElem?]
    exact top
  rw [pop?, last]
  rfl

theorem truncate_height : stack.truncate stack.height = stack :=
  eq_of_toList (by rw [toList_truncate, ← length_toList, List.take_length])

theorem truncate_drop {height : Nat} (kept : height < stack.height) :
    stack.drop.truncate height = stack.truncate height := by
  have length := stack.length_toList
  refine eq_of_toList ?_
  rw [toList_truncate, toList_drop, List.dropLast_eq_take, List.take_take, toList_truncate,
    min_eq_left (by omega)]

end SlotStack

/-! ## Pops -/

namespace TypeFrame

variable (frame : TypeFrame)

theorem pop_of_empty (empty : frame.pushed.height = 0) :
    frame.pop = (.belowEntry frame.below, { frame with below := frame.below + 1 }) := by
  rw [pop, frame.pushed.pop?_of_empty empty]

theorem pop_of_pos (some_pushed : 0 < frame.pushed.height) :
    frame.pop =
      (frame.read (.stored (frame.pushed.height - 1)), { frame with pushed := frame.pushed.drop }) := by
  obtain ⟨slot, top⟩ : ∃ slot, frame.pushed.at? (frame.pushed.height - 1) = some slot :=
    ⟨_, Array.getElem?_eq_getElem (Nat.sub_lt some_pushed Nat.one_pos)⟩
  rw [pop, frame.pushed.pop?_of_at? top, read, top]
  rfl

/-- A pop answers with what is read at the top. -/
theorem pop_fst : frame.pop.1 = frame.read (frame.resolve (-1)) := by
  by_cases empty : frame.pushed.height = 0
  · rw [frame.pop_of_empty empty, resolve, height, empty, if_neg (by omega), read]
    exact congrArg TypeSlot.belowEntry (by omega)
  · rw [frame.pop_of_pos (Nat.pos_of_ne_zero empty), resolve, height, if_pos (by omega)]
    exact congrArg (fun index => frame.read (.stored index)) (by omega)

theorem discard_zero : frame.discard 0 = frame := by
  rw [discard, Nat.sub_zero, Nat.zero_sub, SlotStack.truncate_height]
  rfl

/-- Slots that are popped at once are popped one after the other. -/
theorem discard_succ (count : Nat) : frame.discard (count + 1) = frame.pop.2.discard count := by
  by_cases empty : frame.pushed.height = 0
  · have below : frame.below + (count + 1 - 0) = frame.below + 1 + (count - 0) := by omega
    rw [frame.pop_of_empty empty]
    simp only [discard, empty, Nat.zero_sub, below]
  · have height : frame.pushed.height - (count + 1) = frame.pushed.height - 1 - count := by omega
    have below : count + 1 - frame.pushed.height = count - (frame.pushed.height - 1) := by omega
    rw [frame.pop_of_pos (Nat.pos_of_ne_zero empty)]
    simp only [discard, SlotStack.height_drop, height, below]
    rw [SlotStack.truncate_drop _ (by omega)]

/-- Settling a slot replaces it or does nothing. -/
theorem settleAt_eq (slot : TypeSlot) (address : Address) : frame.settleAt slot address =
    if (frame.read address).isSettled then frame else frame.write slot address := by
  cases address with
  | stored index =>
      rw [settleAt, settle, read]
      cases found : frame.pushed.at? index with
      | some current => rfl
      | none =>
          have above : frame.pushed.height ≤ index := Array.getElem?_eq_none_iff.mp found
          rw [write, SlotStack.set_of_le _ above]
          rfl
  | callers index => exact (ite_self frame).symm

end TypeFrame

/-! ## Frames as stacks of cells -/

namespace TypeFrame

variable {frame : TypeFrame} {stack : CellStack}

/-- A frame keeps the cells from the lowest height on, and those below it are the caller's. -/
structure Represents (frame : TypeFrame) (stack : CellStack) : Prop where
  /-- Both are as high. -/
  height : frame.height = stack.height
  /-- The consumed slots are those above the lowest height. -/
  lowest : stack.lowest = -frame.below
  /-- The pushed slots lie from the lowest height on. -/
  stored : ∀ index < frame.pushed.height,
    frame.pushed.at? index = some (stack.cells (stack.lowest + index))
  /-- Below the lowest height lie the caller's slots, numbered downwards from the entry. -/
  callers : ∀ position < stack.lowest, stack.cells position = .belowEntry (-position - 1).toNat

theorem represents_entry : Represents {} .entry where
  height := rfl
  lowest := rfl
  stored := fun index bound => absurd bound (Nat.not_lt_zero index)
  callers := fun _ below => if_pos below

namespace Represents

/-- As many slots are pushed as there are positions from the lowest height to the top. -/
theorem pushed (represents : frame.Represents stack) :
    (frame.pushed.height : Int) = stack.height - stack.lowest := by
  have high := represents.height
  have low := represents.lowest
  rw [TypeFrame.height] at high
  omega

/-- The slot at an offset is that at the position so far from the top. -/
theorem read_resolve (represents : frame.Represents stack) (offset : Int) :
    frame.read (frame.resolve offset) = stack.read (stack.height + offset) := by
  have pushed := represents.pushed
  have low := represents.lowest
  rw [resolve, represents.height]
  by_cases kept : -(frame.below : Int) ≤ stack.height + offset
  · rw [if_pos kept, read]
    -- An offset that is not negative addresses a stored slot too, but none above the top exists.
    by_cases inside : stack.height + offset < stack.height
    · have position :
          stack.lowest + ((stack.height + offset + frame.below).toNat : Int) = stack.height + offset := by
        omega
      rw [represents.stored _ (by omega), position, CellStack.read, if_pos inside]
      rfl
    · rw [SlotStack.at?_eq_none _ (by omega), CellStack.read, if_neg inside]
      rfl
  · rw [if_neg kept, read, CellStack.read, if_pos (by omega), represents.callers _ (by omega)]

theorem push (represents : frame.Represents stack) (slot : TypeSlot) :
    (frame.push slot).Represents (stack.push slot) := by
  have pushed := represents.pushed
  refine ⟨?_, represents.lowest, fun index bound => ?_, fun position below => ?_⟩
  · rw [height_push, represents.height]
    rfl
  · rw [TypeFrame.push, SlotStack.height_push] at bound
    rw [TypeFrame.push, SlotStack.at?_push]
    dsimp only [CellStack.push]
    rw [Function.update_apply]
    by_cases top : index = frame.pushed.height
    · rw [if_pos top, if_pos (by omega)]
    · rw [if_neg top, if_neg (by omega)]
      exact represents.stored index (by omega)
  · dsimp only [CellStack.push] at below ⊢
    rw [Function.update_of_ne (by omega)]
    exact represents.callers position below

theorem pushAll (represents : frame.Represents stack) (slots : List TypeSlot) :
    (slots.foldl TypeFrame.push frame).Represents (slots.foldl CellStack.push stack) := by
  induction slots generalizing frame stack with
  | nil => exact represents
  | cons slot slots induction => exact induction (represents.push slot)

theorem pushType (represents : frame.Represents stack) (type : Ty) :
    (frame.pushType type).Represents ((type.flatten.map .known).foldl CellStack.push stack) := by
  have pushed := represents.pushAll (type.flatten.map .known)
  rw [List.foldl_map] at pushed
  exact pushed

/-- A pop gives what lies on top, whether it was pushed or is the caller's. -/
theorem pop_fst (represents : frame.Represents stack) : frame.pop.1 = stack.pop.1 := by
  rw [TypeFrame.pop_fst, represents.read_resolve, CellStack.read, if_pos (by omega)]
  rfl

theorem pop (represents : frame.Represents stack) : frame.pop.2.Represents stack.pop.2 := by
  have pushed := represents.pushed
  have low := represents.lowest
  have height : frame.pop.2.height = stack.height - 1 := by rw [height_pop, represents.height]
  by_cases empty : frame.pushed.height = 0
  · -- The top is the caller's, so the lowest height falls and one more slot counts as consumed.
    have reached : stack.pop.2.lowest = stack.height - 1 := min_eq_right (by omega)
    rw [frame.pop_of_empty empty] at height ⊢
    refine ⟨height, ?_, fun index bound => ?_, fun position below => ?_⟩
    · rw [reached]
      push_cast
      omega
    · exact absurd bound (by rw [empty]; exact Nat.not_lt_zero index)
    · exact represents.callers position (by omega)
  · have kept : stack.pop.2.lowest = stack.lowest := min_eq_left (by omega)
    rw [frame.pop_of_pos (Nat.pos_of_ne_zero empty)] at height ⊢
    refine ⟨height, kept.trans low, fun index bound => ?_, fun position below => ?_⟩
    · rw [SlotStack.height_drop] at bound
      rw [SlotStack.at?_drop _ bound, kept]
      exact represents.stored index (by omega)
    · exact represents.callers position (kept ▸ below)

theorem discard (represents : frame.Represents stack) (count : Nat) :
    (frame.discard count).Represents (stack.discard count) := by
  induction count generalizing frame stack with
  | zero =>
      rw [discard_zero]
      exact represents
  | succ count induction =>
      rw [discard_succ]
      exact induction represents.pop

/-- Exactly the positions from the lowest height to the top are written to. -/
theorem write (represents : frame.Represents stack) (slot : TypeSlot) (offset : Int) :
    (frame.write slot (frame.resolve offset)).Represents
      (stack.write (stack.height + offset) slot) := by
  have pushed := represents.pushed
  have low := represents.lowest
  rw [resolve, represents.height]
  by_cases kept : -(frame.below : Int) ≤ stack.height + offset
  · rw [if_pos kept]
    by_cases inside : stack.height + offset < stack.height
    · rw [TypeFrame.write, CellStack.write, if_pos ⟨by omega, inside⟩]
      have bound : (stack.height + offset + frame.below).toNat < frame.pushed.height := by omega
      refine ⟨?_, low, fun index below => ?_, fun position below => ?_⟩
      · rw [← represents.height, TypeFrame.height, TypeFrame.height, SlotStack.height_set]
      · rw [SlotStack.height_set] at below
        rw [SlotStack.at?_set _ bound]
        dsimp only
        rw [Function.update_apply]
        by_cases here : (stack.height + offset + frame.below).toNat = index
        · rw [if_pos here, if_pos (by omega)]
        · rw [if_neg here, if_neg (by omega)]
          exact represents.stored index below
      · dsimp only at below ⊢
        rw [Function.update_of_ne (by omega)]
        exact represents.callers position below
    · rw [TypeFrame.write, CellStack.write, if_neg (fun both => inside both.2),
        SlotStack.set_of_le _ (by omega)]
      exact represents
  · rw [if_neg kept, CellStack.write, if_neg (by omega)]
    exact represents

theorem settle (represents : frame.Represents stack) (slot : TypeSlot) (offset : Int) :
    (frame.settleAt slot (frame.resolve offset)).Represents
      (stack.settle (stack.height + offset) slot) := by
  rw [settleAt_eq, CellStack.settle, represents.read_resolve]
  split
  · exact represents
  · exact represents.write slot offset

/-- What is done to both is answered alike, and they stay alike. -/
theorem perform (represents : frame.Represents stack) (operation : Operation) :
    (frame.perform operation).1 = (stack.perform operation).1 ∧
      (frame.perform operation).2.Represents (stack.perform operation).2 := by
  cases operation with
  | push slot => exact ⟨rfl, represents.push slot⟩
  | pushType type => exact ⟨rfl, represents.pushType type⟩
  | pop => exact ⟨congrArg some represents.pop_fst, represents.pop⟩
  | discard count => exact ⟨rfl, represents.discard count⟩
  | write offset slot => exact ⟨rfl, represents.write slot _⟩
  | settle offset slot => exact ⟨rfl, represents.settle slot _⟩
  | read offset => exact ⟨congrArg some (represents.read_resolve _), represents⟩

theorem run (represents : frame.Represents stack) (operations : List Operation) :
    (frame.run operations).1 = (stack.run operations).1 ∧
      (frame.run operations).2.Represents (stack.run operations).2 := by
  induction operations generalizing frame stack with
  | nil => exact ⟨rfl, represents⟩
  | cons operation operations induction =>
      obtain ⟨answer, next⟩ := represents.perform operation
      obtain ⟨answers, last⟩ := induction next
      refine ⟨?_, last⟩
      rw [TypeFrame.run, CellStack.run]
      exact congrArg₂ List.cons (Prod.ext answer next.height) answers

end Represents

/-- A frame is a bottomless stack.  Whatever is pushed, popped, replaced and read after the entry, frame
and stack give the same answers and have the same height behind each operation.  In the end every offset
from the top, in slots, addresses what lies at that position of the stack. -/
theorem run_bottomless (operations : List Operation) :
    (run {} operations).1 = (CellStack.entry.run operations).1 ∧
      (run {} operations).2.Represents (CellStack.entry.run operations).2 ∧
      ∀ offset : Int,
        (run {} operations).2.read ((run {} operations).2.resolve offset) =
          (CellStack.entry.run operations).2.read
            ((CellStack.entry.run operations).2.height + offset) := by
  obtain ⟨answers, last⟩ := represents_entry.run operations
  exact ⟨answers, last, last.read_resolve⟩

/-- Two of the caller's slots are consumed and the lower one is pushed over. -/
example : (run {} [.pop, .pop, .push .unknown, .read (-4), .read (-8), .pop, .pop]).1 =
    [(some (.belowEntry 0), -1), (some (.belowEntry 1), -2), (none, -1), (some .unknown, -1),
      (some (.belowEntry 2), -1), (some .unknown, -2), (some (.belowEntry 2), -3)] := by
  decide

end TypeFrame
end NwScript
