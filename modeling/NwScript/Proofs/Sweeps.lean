import Mathlib.Data.Finset.Card
import Mathlib.Data.Finset.Range
import Mathlib.Logic.Relation
import NwScript.Flow.Liveness
import NwScript.Proofs.JumpTargets

/-!
# Sweeps

A sweep marks only what control can reach, never takes a mark back, and leaves no step from a marked
to an unmarked instruction if it changes nothing.  Each sweep but the last marks one more instruction,
so the sweeps stop before their number runs out, and they stop at the reachable instructions.  Of the
origins that a table lists, sweeps only see the reachable ones.
-/

namespace NwScript

/-- Control passes from one instruction to another: to the next one, unless the first one returns or
is a plain jump that does not follow a saved state, or along a resolved jump. -/
inductive FlowStep (program : Program) (table : FlowTable) : Nat → Nat → Prop
  | next {source target : Nat} (behind : program.next? source = some target)
      (stays : program.opcode source ≠ .ret)
      (deferred : program.opcode source = .jump →
        ∃ before, program.previous? source = some before ∧ program.opcode before = .storeState) :
      FlowStep program table source target
  | jump {source target : Nat} (jumps : (program.opcode source).isJump)
      (leads : table.destination source = .ok (some target)) : FlowStep program table source target

/-- An instruction is reached from the first one of the first subroutine by some steps. -/
def IsReachable (program : Program) (table : FlowTable) (command : Nat) : Prop :=
  0 < program.subroutineCount ∧
    Relation.ReflTransGen (FlowStep program table) (program.entry 0) command

namespace Program

variable {program : Program} {source target : Nat}

theorem next?_eq_some (behind : program.next? source = some target) :
    target = source + 1 ∧ target < program.commandCount ∧ program.previous? target = some source := by
  unfold next? at behind
  split at behind
  · obtain ⟨inside, owned⟩ := ‹_ ∧ _›
    cases behind
    refine ⟨rfl, inside, ?_⟩
    simp only [previous?, Nat.add_sub_cancel, owned, and_true, if_pos (Nat.succ_pos source)]
  · cases behind

end Program

namespace Liveness

variable {program : Program} {live next : Array Bool}

/-- An instruction is marked. -/
def IsMarked (live : Array Bool) (command : Nat) : Prop :=
  live.getD command false = true

/-- Control falls through to an instruction. -/
def FallsTo (program : Program) (source target : Nat) : Prop :=
  program.next? source = some target ∧
    endsFlow (program.opcode source) ((program.previous? source).map program.opcode) = false

/-- An instruction is where the program starts, or a step leads to it from a marked one. -/
def IsDue (program : Program) (live : Array Bool) (command : Nat) : Prop :=
  (0 < program.subroutineCount ∧ command = program.entry 0) ∨
    ∃ source, IsMarked live source ∧ FlowStep program (.resolved program) source command

theorem endsFlow_eq_false {opcode : Opcode} {previous : Option Opcode} :
    endsFlow opcode previous = false ↔
      opcode ≠ .ret ∧ (opcode = .jump → previous = some .storeState) := by
  cases opcode <;> simp [endsFlow]

theorem jump_of_destination? {source target : Nat}
    (found : Jumps.destination? program source = some target) :
    (program.opcode source).isJump = true := by
  obtain ⟨_, aimed, _⟩ := Option.bind_eq_some_iff.mp found
  obtain ⟨_, offset, _⟩ := Option.map_eq_some_iff.mp aimed
  unfold Instruction.jumpOffset? at offset
  split at offset
  · assumption
  · cases offset

theorem lt_of_destination? {source target : Nat}
    (found : Jumps.destination? program source = some target) : source < program.commandCount := by
  by_contra outside
  have absent : program.command? source = none :=
    Array.getElem?_eq_none_iff.mpr (Nat.not_lt.mp outside)
  have jumps := jump_of_destination? found
  simp [Program.opcode, Program.instruction, absent, Instruction.simple, Opcode.isJump] at jumps

/-- The two kinds of steps. -/
theorem flowStep_iff {source target : Nat} (inside : source < program.commandCount) :
    FlowStep program (.resolved program) source target ↔
      FallsTo program source target ∨ Jumps.destination? program source = some target := by
  constructor
  · rintro (⟨behind, stays, deferred⟩ | ⟨_, leads⟩)
    · left
      refine ⟨behind, endsFlow_eq_false.mpr ⟨stays, fun jumps => ?_⟩⟩
      obtain ⟨before, here, saves⟩ := deferred jumps
      rw [here, Option.map_some, saves]
    · right
      rw [FlowTable.destination_resolved inside] at leads
      exact Except.ok.inj leads
  · rintro (⟨behind, flows⟩ | found)
    · obtain ⟨stays, deferred⟩ := endsFlow_eq_false.mp flows
      refine .next behind stays fun jumps => ?_
      obtain ⟨before, here, saves⟩ := Option.map_eq_some_iff.mp (deferred jumps)
      exact ⟨before, here, saves⟩
    · refine .jump (jump_of_destination? found) ?_
      rw [FlowTable.destination_resolved inside, found]

theorem target_lt {source target : Nat} (inside : source < program.commandCount)
    (step : FlowStep program (.resolved program) source target) : target < program.commandCount := by
  rcases (flowStep_iff inside).mp step with ⟨behind, _⟩ | found
  · exact (Program.next?_eq_some behind).2.1
  · exact Jumps.destination?_lt found

theorem isMarked_lt {command : Nat} (marked : IsMarked live command) : command < live.size := by
  by_contra outside
  simp [IsMarked, Array.getD_eq_getD_getElem?, Nat.not_lt.mp outside] at marked

section Growth

/-- Marks are added and none is taken back. -/
structure Grows (live next : Array Bool) : Prop where
  /-- The arrays have the same size. -/
  size : next.size = live.size
  /-- What is marked stays marked. -/
  kept : ∀ command, IsMarked live command → IsMarked next command

theorem Grows.refl (live : Array Bool) : Grows live live :=
  ⟨rfl, fun _ marked => marked⟩

theorem Grows.trans {middle : Array Bool} (first : Grows live middle) (second : Grows middle next) :
    Grows live next :=
  ⟨second.size.trans first.size, fun command marked => second.kept command (first.kept command marked)⟩

theorem eq_of_same_marks (size : next.size = live.size)
    (same : ∀ command, IsMarked live command ↔ IsMarked next command) : next = live := by
  apply Array.ext size
  intro command here there
  have equal := same command
  simp only [IsMarked, Array.getD_eq_getD_getElem?, Array.getElem?_eq_getElem here,
    Array.getElem?_eq_getElem there, Option.getD_some] at equal
  exact (Bool.eq_iff_iff.mpr equal).symm

/-- If the last array is the first one again, so are all between them. -/
theorem Grows.eq_of_cycle (first : Grows live next) (second : Grows next live) : next = live :=
  eq_of_same_marks first.size fun command => ⟨first.kept command, second.kept command⟩

theorem isMarked_set {command other : Nat} (inside : command < live.size) :
    IsMarked (live.setIfInBounds command true) other ↔ other = command ∨ IsMarked live other := by
  by_cases same : command = other
  · subst same
    simp [IsMarked, Array.getD_eq_getD_getElem?, inside]
  · simp [IsMarked, Array.getD_eq_getD_getElem?, Array.getElem?_setIfInBounds_ne same, Ne.symm same]

theorem Grows.set (live : Array Bool) {command : Nat} (inside : command < live.size) :
    Grows live (live.setIfInBounds command true) :=
  ⟨by simp, fun _ marked => (isMarked_set inside).mpr (.inr marked)⟩

/-- The unmarked instructions. -/
def unmarked (live : Array Bool) : Finset Nat :=
  (Finset.range live.size).filter fun command => live.getD command false = false

theorem mem_unmarked {command : Nat} :
    command ∈ unmarked live ↔ command < live.size ∧ ¬IsMarked live command := by
  simp [unmarked, IsMarked]

theorem card_unmarked_le (live : Array Bool) : (unmarked live).card ≤ live.size := by
  have bound := Finset.card_filter_le (Finset.range live.size)
    fun command => live.getD command false = false
  rwa [Finset.card_range] at bound

/-- A sweep that changes something leaves fewer instructions unmarked. -/
theorem Grows.card_lt (grows : Grows live next) (changed : next ≠ live) :
    (unmarked next).card < (unmarked live).card := by
  apply Finset.card_lt_card
  have below : unmarked next ⊆ unmarked live := by
    intro command listed
    rw [mem_unmarked, grows.size] at *
    exact ⟨listed.1, fun marked => listed.2 (grows.kept command marked)⟩
  refine (Finset.ssubset_iff_of_subset below).mpr ?_
  by_contra none_new
  push Not at none_new
  refine changed (grows.eq_of_cycle ⟨grows.size.symm, fun command marked => ?_⟩)
  by_contra fresh
  have here : command < live.size := grows.size ▸ isMarked_lt marked
  exact (mem_unmarked.mp (none_new command (mem_unmarked.mpr ⟨here, fresh⟩))).2 marked

end Growth

section Sweep

/-- Only reachable instructions are marked. -/
def OnlyReachable (program : Program) (live : Array Bool) : Prop :=
  ∀ command, IsMarked live command → IsReachable program (.resolved program) command

theorem OnlyReachable.of_due (sound : OnlyReachable program live) {command : Nat}
    (due : IsDue program live command) : IsReachable program (.resolved program) command := by
  rcases due with ⟨nonempty, rfl⟩ | ⟨source, marked, step⟩
  · exact ⟨nonempty, .refl⟩
  · obtain ⟨nonempty, path⟩ := sound source marked
    exact ⟨nonempty, path.tail step⟩

/-- A table lists, of the reachable jumps, those that lead to an instruction as its origins. -/
def ListsJumps (program : Program) (table : FlowTable) : Prop :=
  ∀ command < program.commandCount, ∃ origins, table.origins command = .ok origins ∧
    ∀ origin, IsReachable program (.resolved program) origin →
      (origin ∈ origins ↔ Jumps.destination? program origin = some command)

theorem listsJumps_resolved (program : Program) : ListsJumps program (.resolved program) := by
  intro command inside
  refine ⟨_, FlowTable.origins_resolved inside, fun origin _ => ?_⟩
  rw [List.mem_filter, List.mem_range, decide_eq_true_iff]
  exact and_iff_right_of_imp lt_of_destination?

variable {table : FlowTable}

/-- An instruction is found reached exactly if it is due. -/
theorem isReached_spec (lists : ListsJumps program table) (sound : OnlyReachable program live)
    (sized : live.size = program.commandCount) {command : Nat}
    (inside : command < program.commandCount) {flows : Bool}
    (falls : flows = true ↔ ∃ source, IsMarked live source ∧ FallsTo program source command) :
    ∃ reached, isReached program table live flows command = .ok reached ∧
      (reached = true ↔ IsDue program live command) := by
  unfold isReached
  split
  · rename_i start
    refine ⟨true, rfl, iff_of_true rfl ?_⟩
    rcases start with flows | start
    · obtain ⟨source, marked, falling⟩ := falls.mp flows
      have bound : source < program.commandCount := sized ▸ isMarked_lt marked
      exact .inr ⟨source, marked, (flowStep_iff bound).mpr (.inl falling)⟩
    · exact .inl start
  rename_i elsewhere
  obtain ⟨halts, not_start⟩ := not_or.mp elsewhere
  obtain ⟨origins, known, listed_iff⟩ := lists command inside
  rw [known]
  refine ⟨_, rfl, ?_⟩
  rw [List.any_eq_true]
  constructor
  · rintro ⟨origin, listed, marked⟩
    have found := (listed_iff origin (sound origin marked)).mp listed
    exact .inr ⟨origin, marked, (flowStep_iff (lt_of_destination? found)).mpr (.inr found)⟩
  · rintro (start | ⟨source, marked, step⟩)
    · exact absurd start not_start
    · have bound : source < program.commandCount := sized ▸ isMarked_lt marked
      rcases (flowStep_iff bound).mp step with falling | found
      · exact absurd (falls.mpr ⟨source, marked, falling⟩) halts
      · exact ⟨source, (listed_iff source (sound source marked)).mpr found, marked⟩

/-- What a sweep over some instructions does. -/
structure Swept (program : Program) (live next : Array Bool) (commands : List Nat) : Prop where
  /-- Marks are only added. -/
  grows : Grows live next
  /-- Only reachable instructions are marked. -/
  sound : OnlyReachable program live → OnlyReachable program next
  /-- If nothing changes, what is due is marked. -/
  closed : next = live → ∀ command ∈ commands, IsDue program live command → IsMarked live command

theorem Swept.nil (program : Program) (live : Array Bool) : Swept program live live [] :=
  ⟨.refl live, id, by simp⟩

theorem Swept.append {middle : Array Bool} {first second : List Nat}
    (one : Swept program live middle first) (other : Swept program middle next second) :
    Swept program live next (first ++ second) := by
  refine ⟨one.grows.trans other.grows, other.sound ∘ one.sound, fun same command listed => ?_⟩
  subst same
  obtain rfl : middle = next := one.grows.eq_of_cycle other.grows
  rcases List.mem_append.mp listed with here | there
  · exact one.closed rfl command here
  · exact other.closed rfl command there

/-- Marking one instruction if it is due. -/
theorem Swept.single {command : Nat} (inside : command < live.size) {reached : Bool}
    (due : reached = true ↔ IsDue program live command) :
    Swept program live (if reached then live.setIfInBounds command true else live) [command] := by
  cases reached with
  | false =>
      have calm : ¬IsDue program live command := fun holds => by simpa using due.mpr holds
      exact ⟨.refl live, id, fun _ other listed holds =>
        absurd (List.mem_singleton.mp listed ▸ holds) calm⟩
  | true =>
      refine ⟨.set live inside, fun sound other marked => ?_, fun same other listed _ => ?_⟩
      · rcases (isMarked_set inside).mp marked with rfl | before
        · exact sound.of_due (due.mp rfl)
        · exact sound other before
      · obtain rfl := List.mem_singleton.mp listed
        rw [← same]
        exact (isMarked_set inside).mpr (.inl rfl)

/-- Sweeping the rest of a subroutine.  The flag says that control falls through from the
instruction before it, which has been swept. -/
theorem sweepBody_spec (lists : ListsJumps program table) {sub : Nat}
    (counted : sub < program.subroutineCount) {before rest : List Nat}
    (split : program.body sub = before ++ rest) {flows : Bool}
    (sized : live.size = program.commandCount) (sound : OnlyReachable program live)
    (falls : ∀ command ∈ rest.head?, flows = true ↔
      ∃ source, IsMarked live source ∧ FallsTo program source command) :
    ∃ next, sweepBody program table flows (before.getLast?.map program.opcode) live
        rest = .ok next ∧ Swept program live next rest := by
  induction rest generalizing before flows live with
  | nil => exact ⟨live, rfl, .nil program live⟩
  | cons command rest induction =>
      have inside : command < program.commandCount := by
        have listed : command ∈ program.body sub := by simp [split]
        exact ((Program.mem_body_iff counted).mp listed).1
      obtain ⟨reached, asked, due⟩ := isReached_spec lists sound sized inside (falls command rfl)
      obtain ⟨middle, marks⟩ : ∃ middle,
          middle = if reached then live.setIfInBounds command true else live := ⟨_, rfl⟩
      have first := Swept.single (sized ▸ inside) due
      rw [← marks] at first
      have size : middle.size = program.commandCount := first.grows.size.trans sized
      have previous := Program.previous?_of_body counted split
      have behind := Program.next?_of_body counted split
      have falling : ∀ other ∈ rest.head?,
          (middle.getD command false &&
            !endsFlow (program.opcode command) (before.getLast?.map program.opcode)) = true ↔
          ∃ source, IsMarked middle source ∧ FallsTo program source other := by
        intro other ahead
        have follows : program.next? command = some other := behind.trans ahead
        rw [Bool.and_eq_true, Bool.not_eq_true', ← previous]
        constructor
        · rintro ⟨marked, stays⟩
          exact ⟨command, marked, follows, stays⟩
        · rintro ⟨source, marked, leads, stays⟩
          obtain rfl : source = command := by
            have one := (Program.next?_eq_some leads).1
            have two := (Program.next?_eq_some follows).1
            omega
          exact ⟨marked, stays⟩
      have split : program.body sub = (before ++ [command]) ++ rest := by simp [split]
      obtain ⟨next, swept, others⟩ := induction split size (first.sound sound) falling
      refine ⟨next, ?_, first.append others⟩
      rw [List.getLast?_concat, Option.map_some] at swept
      simp only [sweepBody, asked, bind, Except.bind, ← marks, swept]

/-- Sweeping some subroutines. -/
theorem sweepSubs_spec (lists : ListsJumps program table) {subs : List Nat}
    (counted : ∀ sub ∈ subs, sub < program.subroutineCount)
    (sized : live.size = program.commandCount) (sound : OnlyReachable program live) :
    ∃ next, subs.foldlM (fun live sub =>
        sweepBody program table false none live (program.body sub)) live = .ok next ∧
      Swept program live next (subs.flatMap program.body) := by
  induction subs generalizing live with
  | nil => exact ⟨live, rfl, .nil program live⟩
  | cons sub subs induction =>
      have bound := counted sub (by simp)
      have falls : ∀ command ∈ (program.body sub).head?, false = true ↔
          ∃ source, IsMarked live source ∧ FallsTo program source command := by
        intro command ahead
        refine iff_of_false (by simp) ?_
        rintro ⟨source, _, leads, _⟩
        cases listed : program.body sub with
        | nil => simp [listed] at ahead
        | cons head tail =>
            obtain rfl : head = command := by simpa [listed] using ahead
            have alone := Program.previous?_of_body bound (listed.trans (List.nil_append _).symm)
            rw [(Program.next?_eq_some leads).2.2] at alone
            simp at alone
      obtain ⟨middle, swept, first⟩ :=
        sweepBody_spec lists bound (List.nil_append _).symm sized sound falls
      obtain ⟨next, rest, others⟩ := induction (fun sub listed => counted sub (by simp [listed]))
        (first.grows.size.trans sized) (first.sound sound)
      refine ⟨next, ?_, first.append others⟩
      rw [List.getLast?_nil, Option.map_none] at swept
      simp only [List.foldlM_cons, swept, bind, Except.bind]
      exact rest

/-- One sweep over the program. -/
theorem sweep_spec (lists : ListsJumps program table) (sized : live.size = program.commandCount)
    (sound : OnlyReachable program live) :
    ∃ next, sweep program table live = .ok next ∧
      Swept program live next program.commandNumbers := by
  have counted : ∀ sub ∈ program.subroutines, sub < program.subroutineCount :=
    fun sub listed => List.mem_range.mp listed
  obtain ⟨next, swept, facts⟩ := sweepSubs_spec lists counted sized sound
  refine ⟨next, swept, facts.grows, facts.sound, fun same command listed => ?_⟩
  have inside := List.mem_range.mp listed
  refine facts.closed same command (List.mem_flatMap.mpr ⟨program.owner command, ?_, ?_⟩)
  · exact List.mem_range.mpr (Program.owner_lt inside)
  · exact Program.mem_body_owner inside

/-- Enough sweeps end with one that changes nothing. -/
theorem settle_spec (lists : ListsJumps program table) {rounds : Nat}
    (sized : live.size = program.commandCount) (enough : (unmarked live).card < rounds)
    (sound : OnlyReachable program live) :
    ∃ next, settle program table rounds live = .ok next ∧ sweep program table next = .ok next ∧
      next.size = program.commandCount ∧ OnlyReachable program next := by
  induction rounds generalizing live with
  | zero => omega
  | succ rounds induction =>
      obtain ⟨next, swept, facts⟩ := sweep_spec lists sized sound
      simp only [settle, swept, bind, Except.bind]
      by_cases same : next = live
      · rw [if_pos same]
        exact ⟨live, rfl, same ▸ swept, sized, sound⟩
      · rw [if_neg same]
        have fewer := facts.grows.card_lt same
        exact induction (facts.grows.size.trans sized) (by omega) (facts.sound sound)

/-- A set of marks that a sweep leaves alone holds every reachable instruction. -/
theorem isMarked_of_isReachable (lists : ListsJumps program table)
    (sized : live.size = program.commandCount) (sound : OnlyReachable program live)
    (settled : sweep program table live = .ok live) {command : Nat}
    (reachable : IsReachable program (.resolved program) command) : IsMarked live command := by
  obtain ⟨next, swept, facts⟩ := sweep_spec lists sized sound
  obtain rfl : live = next := Except.ok.inj (settled.symm.trans swept)
  obtain ⟨nonempty, path⟩ := reachable
  induction path with
  | refl =>
      have inside := Program.entry_lt nonempty
      exact facts.closed rfl _ (List.mem_range.mpr inside) (.inl ⟨nonempty, rfl⟩)
  | tail _ step marked =>
      have inside := target_lt (sized ▸ isMarked_lt marked) step
      exact facts.closed rfl _ (List.mem_range.mpr inside) (.inr ⟨_, marked, step⟩)

/-- The sweeps stop, and they stop at the reachable instructions. -/
theorem exists_liveSet (lists : ListsJumps program table) :
    ∃ live, liveSet program table = .ok live ∧ sweep program table live = .ok live ∧
      live.size = program.commandCount ∧
      ∀ command, IsMarked live command ↔ IsReachable program (.resolved program) command := by
  have size : (Array.replicate program.commandCount false).size = program.commandCount := by simp
  have clear : OnlyReachable program (Array.replicate program.commandCount false) := by
    intro command marked
    have inside := isMarked_lt marked
    simp [IsMarked, Array.getD_eq_getD_getElem?, size ▸ inside] at marked
  have bound := card_unmarked_le (Array.replicate program.commandCount false)
  rw [size] at bound
  obtain ⟨live, found, settled, sized, sound⟩ :=
    settle_spec lists size (Nat.lt_succ_of_le bound) clear
  exact ⟨live, found, settled, sized, fun command =>
    ⟨sound command, isMarked_of_isReachable lists sized sound settled⟩⟩

theorem liveSet_spec (program : Program) :
    ∃ live, liveSet program (.resolved program) = .ok live ∧
      sweep program (.resolved program) live = .ok live ∧ live.size = program.commandCount ∧
      ∀ command, IsMarked live command ↔ IsReachable program (.resolved program) command :=
  exists_liveSet (listsJumps_resolved program)

end Sweep

end Liveness
end NwScript
