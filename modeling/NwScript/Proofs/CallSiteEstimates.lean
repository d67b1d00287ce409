import Mathlib.Data.List.Basic
import NwScript.Proofs.CallTargets

/-!
# Estimates from all callers and from a few

The cursor of a walk through a caller does not depend on the estimates, and what the walk shows about a
callee is merged into them by the larger number.  So callers can be visited in any order, and those without
a live call of a subroutine can be left out of its estimate.
-/

namespace NwScript

open FlowTable (LiveCall Calls)

namespace SlotEstimates

theorem lookup_cons_eq_ite (entry : Nat × Nat) (rest : SlotEstimates) (sub : Nat) :
    List.lookup sub (entry :: rest) =
      if sub = entry.1 then some entry.2 else List.lookup sub rest := by
  rw [List.lookup_cons]
  split <;> simp_all

/-- Raising the estimate of a callee merges a number into it and leaves the others alone. -/
theorem lookup_raise (estimates : SlotEstimates) (callee slots sub : Nat) :
    List.lookup sub (estimates.raise callee slots) =
      (List.lookup sub estimates).merge max (if sub = callee then some slots else none) := by
  induction estimates with
  | nil => rw [raise, lookup_cons_eq_ite, List.lookup_nil, Option.merge_none_left]
  | cons entry rest induction =>
      rw [raise, lookup_cons_eq_ite entry]
      by_cases here : entry.1 = callee
      · rw [if_pos here, lookup_cons_eq_ite, here]
        by_cases same : sub = callee
        · simp only [if_pos same, Option.merge]
        · simp only [if_neg same, Option.merge_none_right]
      · rw [if_neg here, lookup_cons_eq_ite, induction]
        by_cases same : sub = entry.1
        · rw [if_pos same, if_pos same, if_neg (same ▸ here), Option.merge_none_right]
        · rw [if_neg same, if_neg same]

/-- Nothing comes of merging if and only if there was nothing to merge. -/
theorem foldl_merge_eq_none_iff (found : List (Option Nat)) (start : Option Nat) :
    found.foldl (Option.merge max) start = none ↔ start = none ∧ ∀ slots ∈ found, slots = none := by
  induction found generalizing start with
  | nil => simp
  | cons slots rest induction =>
      rw [List.foldl_cons, induction, Option.merge_eq_none_iff, List.forall_mem_cons, and_assoc]

/-- What says nothing can be left out of a merge. -/
theorem foldl_merge_filter {items : List Nat} {keep : Nat → Bool} {found : Nat → Option Nat}
    (silent : ∀ item ∈ items, keep item = false → found item = none) (start : Option Nat) :
    ((items.filter keep).map found).foldl (Option.merge max) start =
      (items.map found).foldl (Option.merge max) start := by
  induction items generalizing start with
  | nil => rfl
  | cons item rest induction =>
      obtain ⟨here, others⟩ := List.forall_mem_cons.mp silent
      rw [List.map_cons, List.foldl_cons, List.filter_cons]
      split
      · rw [List.map_cons, List.foldl_cons, induction others]
      · rename_i dropped
        rw [here (Bool.eq_false_iff.mpr dropped), Option.merge_none_right, induction others]

/-- The order of a merge does not matter. -/
theorem foldl_merge_perm {found other : List (Option Nat)} (perm : found.Perm other)
    (start : Option Nat) :
    found.foldl (Option.merge max) start = other.foldl (Option.merge max) start := by
  have assoc := (Option.associative_merge (max : Nat → Nat → Nat)).assoc
  have comm := (Option.commutative_merge (max : Nat → Nat → Nat)).comm
  refine perm.foldl_eq' (fun first _ second _ before => ?_) start
  rw [assoc, comm first second, ← assoc]

end SlotEstimates

namespace CallSites

/-- A subroutine has a prototype, so nothing is estimated for it. -/
def IsSettled (protos : Array Prototype) (sub : Nat) : Prop :=
  ∃ proto, protos[sub]? = some proto ∧ proto.isPrototyped = true

/-- A walk over some instructions moves the cursor, whatever the estimates are.  It merges what it shows
into them, which is something for each callee of a live call that has no prototype. -/
structure Walks (evidence : Evidence) (protos : Array Prototype) (commands : List Nat)
    (first last : Cursor) (shown : Nat → Option Nat) : Prop where
  /-- It succeeds and merges what it shows. -/
  merges : ∀ estimates, ∃ raised,
    commands.foldlM (step evidence protos) (first, estimates) = .ok (last, raised) ∧
      ∀ sub, List.lookup sub raised = (List.lookup sub estimates).merge max (shown sub)
  /-- It shows nothing but for the callees of live calls without prototype. -/
  shows : ∀ sub, shown sub = none ↔
    (∀ command ∈ commands, ¬LiveCall evidence.program evidence.table command sub) ∨
      IsSettled protos sub

variable {evidence : Evidence} {protos : Array Prototype} {commands : List Nat}
  {first middle last : Cursor} {shown more : Nat → Option Nat}

theorem Walks.nil (cursor : Cursor) : Walks evidence protos [] cursor cursor fun _ => none where
  merges := fun estimates => ⟨estimates, rfl, fun sub => Option.merge_none_right.symm⟩
  shows := by simp

theorem Walks.append {before after : List Nat}
    (here : Walks evidence protos before first middle shown)
    (rest : Walks evidence protos after middle last more) :
    Walks evidence protos (before ++ after) first last
      fun sub => (shown sub).merge max (more sub) where
  merges := fun estimates => by
    obtain ⟨raised, walked, merged⟩ := here.merges estimates
    obtain ⟨final, further, both⟩ := rest.merges raised
    refine ⟨final, by rw [List.foldlM_append, walked]; exact further, fun sub => ?_⟩
    rw [both, merged]
    exact (Option.associative_merge max).assoc _ _ _
  shows := fun sub => by
    rw [Option.merge_eq_none_iff, here.shows, rest.shows, List.forall_mem_append]
    tauto

/-- A call of a subroutine without prototype shows the slots above the result. -/
theorem stepCall_merges (protos : Array Prototype) (callee : Nat) (cursor : Cursor) :
    ∃ (next : Cursor) (slots : Option Nat), (slots = none ↔ IsSettled protos callee) ∧
      ∀ estimates, ∃ raised, stepCall protos callee cursor estimates = (next, raised) ∧
        ∀ sub, List.lookup sub raised =
          (List.lookup sub estimates).merge max (if sub = callee then slots else none) := by
  unfold stepCall
  dsimp only
  generalize cursor.reserved.head?.filter (fun height => decide (cursor.mark ≤ height)) = slot
  cases known : protos[callee]?.filter (·.isPrototyped) with
  | some proto =>
      obtain ⟨found, settled⟩ := Option.filter_eq_some_iff.mp known
      refine ⟨_, none, iff_of_true rfl ⟨proto, found, settled⟩, fun estimates =>
        ⟨estimates, rfl, fun sub => ?_⟩⟩
      rw [ite_self, Option.merge_none_right]
  | none =>
      have unsettled : ¬IsSettled protos callee := by
        rintro ⟨proto, found, settled⟩
        rw [found, Option.filter_some, if_pos settled] at known
        cases known
      exact ⟨_, some _, iff_of_false (Option.some_ne_none _) unsettled, fun estimates =>
        ⟨_, rfl, fun sub => SlotEstimates.lookup_raise _ _ _ _⟩⟩

/-- An instruction that is no live call shows nothing. -/
theorem walks_of_quiet {command : Nat} {next : Cursor}
    (quiet : ∀ sub, ¬LiveCall evidence.program evidence.table command sub)
    (stepped : ∀ estimates, step evidence protos (first, estimates) command = .ok (next, estimates)) :
    Walks evidence protos [command] first next fun _ => none where
  merges := fun estimates =>
    ⟨estimates, by rw [List.foldlM_cons, stepped]; rfl, fun _ => Option.merge_none_right.symm⟩
  shows := fun sub => by simp [quiet sub]

/-- The walk over an instruction. -/
theorem exists_walks_single (protos : Array Prototype) (known : evidence.table.IsKnown evidence.program)
    (built : CallGraph.build evidence.program evidence.table = .ok evidence.calls) {command : Nat}
    (inside : command < evidence.program.commandCount) (cursor : Cursor) :
    ∃ next shown, Walks evidence protos [command] cursor next shown := by
  obtain ⟨dead, marked⟩ := known.isDead_eq inside
  cases dead with
  | true =>
      refine ⟨cursor, _, walks_of_quiet (fun sub live => ?_) fun estimates => by rw [step, marked]; rfl⟩
      cases marked.symm.trans live.live
  | false =>
      by_cases calling : (evidence.program.instruction command).opcode = .call
      · cases aimed : evidence.calls.target? command with
        | none =>
            refine ⟨cursor, _, walks_of_quiet (fun sub live => ?_) fun estimates => ?_⟩
            · cases aimed.symm.trans ((CallGraph.target?_eq_some_iff built).mpr live)
            · rw [step, marked]
              simp only [bind, Except.bind, Bool.false_eq_true, if_false, if_pos calling, aimed]
              rfl
        | some callee =>
            have only : ∀ sub, LiveCall evidence.program evidence.table command sub ↔ sub = callee := by
              intro sub
              rw [← CallGraph.target?_eq_some_iff built, aimed, Option.some.injEq, eq_comm]
            obtain ⟨next, slots, absent, merges⟩ := stepCall_merges protos callee cursor
            refine ⟨next, fun sub => if sub = callee then slots else none, ⟨fun estimates => ?_, ?_⟩⟩
            · obtain ⟨raised, stepped, merged⟩ := merges estimates
              refine ⟨raised, ?_, merged⟩
              rw [List.foldlM_cons, step, marked]
              simp only [bind, Except.bind, Bool.false_eq_true, if_false, if_pos calling, aimed]
              rw [stepped]
              rfl
            · intro sub
              rw [List.forall_mem_singleton, only]
              split
              · rename_i same
                subst same
                rw [absent]
                simp
              · rename_i apart
                simp [apart]
      · let next := stepOther evidence.catalog (evidence.program.instruction command) cursor
        refine ⟨next, _, walks_of_quiet (fun sub live => calling live.calls) fun estimates => ?_⟩
        rw [step, marked]
        simp only [bind, Except.bind, Bool.false_eq_true, if_false, if_neg calling]
        rfl

theorem exists_walks (protos : Array Prototype) (known : evidence.table.IsKnown evidence.program)
    (built : CallGraph.build evidence.program evidence.table = .ok evidence.calls)
    (inside : ∀ command ∈ commands, command < evidence.program.commandCount) (cursor : Cursor) :
    ∃ last shown, Walks evidence protos commands cursor last shown := by
  induction commands generalizing cursor with
  | nil => exact ⟨cursor, _, .nil cursor⟩
  | cons command rest induction =>
      obtain ⟨bound, others⟩ := List.forall_mem_cons.mp inside
      obtain ⟨next, shown, here⟩ := exists_walks_single protos known built bound cursor
      obtain ⟨last, more, walks⟩ := induction others next
      exact ⟨last, _, here.append walks⟩

/-- The estimate for a callee that one caller shows. -/
def shownBy (evidence : Evidence) (protos : Array Prototype) (callee caller : Nat) : Option Nat :=
  match walk evidence protos [] caller with
  | .ok estimates => List.lookup callee estimates
  | .error _ => none

section Callers

variable (known : evidence.table.IsKnown evidence.program)
  (built : CallGraph.build evidence.program evidence.table = .ok evidence.calls)

include known built

/-- A walk through a caller merges what the caller shows by itself, which is something for each callee
without prototype. -/
theorem walk_spec (protos : Array Prototype) (caller : Nat) :
    (∀ estimates, ∃ raised, walk evidence protos estimates caller = .ok raised ∧
      ∀ sub, List.lookup sub raised =
        (List.lookup sub estimates).merge max (shownBy evidence protos sub caller)) ∧
    ∀ sub, shownBy evidence protos sub caller = none ↔
      (∀ command ∈ evidence.program.body caller,
        ¬LiveCall evidence.program evidence.table command sub) ∨ IsSettled protos sub := by
  have inside : ∀ command ∈ evidence.program.body caller, command < evidence.program.commandCount :=
    fun _ listed => Program.lt_of_mem_body listed
  obtain ⟨last, shown, walks⟩ := exists_walks protos known built inside {}
  have alone : ∀ sub, shownBy evidence protos sub caller = shown sub := by
    intro sub
    obtain ⟨raised, walked, merged⟩ := walks.merges []
    have ran : walk evidence protos [] caller = .ok raised := by rw [walk, walked]; rfl
    rw [shownBy, ran]
    exact (merged sub).trans Option.merge_none_left
  refine ⟨fun estimates => ?_, fun sub => by rw [alone]; exact walks.shows sub⟩
  obtain ⟨raised, walked, merged⟩ := walks.merges estimates
  refine ⟨raised, by rw [walk, walked]; rfl, fun sub => ?_⟩
  rw [merged, alone]

/-- Walks through callers merge what each of them shows. -/
theorem foldlM_walk (protos : Array Prototype) (callers : List Nat) (estimates : SlotEstimates) :
    ∃ raised, callers.foldlM (walk evidence protos) estimates = .ok raised ∧
      ∀ sub, List.lookup sub raised = (callers.map (shownBy evidence protos sub)).foldl
        (Option.merge max) (List.lookup sub estimates) := by
  induction callers generalizing estimates with
  | nil => exact ⟨estimates, rfl, fun _ => rfl⟩
  | cons caller rest induction =>
      obtain ⟨next, walked, merged⟩ := (walk_spec known built protos caller).1 estimates
      obtain ⟨raised, further, both⟩ := induction next
      refine ⟨raised, by rw [List.foldlM_cons, walked]; exact further, fun sub => ?_⟩
      rw [both, merged, List.map_cons, List.foldl_cons]

/-- A caller that is left out of the estimate of a subroutine shows nothing for it. -/
theorem foldl_callers (protos : Array Prototype) (sub : Nat) :
    ((evidence.calls.callers sub).map (shownBy evidence protos sub)).foldl (Option.merge max) none =
      (evidence.program.subroutines.map (shownBy evidence protos sub)).foldl (Option.merge max)
        none := by
  obtain ⟨sized, -, -⟩ := CallGraph.graph_of_build built
  have all : evidence.calls.graph.nodes = evidence.program.subroutines := by
    rw [Digraph.nodes, sized, Program.subroutines]
  rw [← all]
  refine SlotEstimates.foldl_merge_filter (fun caller listed dropped => ?_) none
  refine ((walk_spec known built protos caller).2 sub).mpr (.inl fun command inBody live => ?_)
  have counted : caller < evidence.program.subroutineCount := by
    rwa [all, Program.subroutines, List.mem_range] at listed
  obtain ⟨-, owned⟩ := (Program.mem_body_iff counted).mp inBody
  have calling := (CallGraph.mem_callers_iff built).mpr ⟨command, owned, live⟩
  have kept := (List.mem_filter.mp calling).2
  cases dropped.symm.trans kept

end Callers

/-- All callers together say the same about a subroutine as its callers alone, and so they do in every
order.  Nothing is estimated exactly if no live call leads to the subroutine or it has a prototype. -/
theorem estimates_agree (known : evidence.table.IsKnown evidence.program)
    (built : CallGraph.build evidence.program evidence.table = .ok evidence.calls)
    (protos : Array Prototype) :
    ∃ estimates, estimate evidence protos = .ok estimates ∧
      (∀ sub, estimateFor evidence protos sub = .ok (List.lookup sub estimates)) ∧
      (∀ sub, List.lookup sub estimates = none ↔
        (∀ command, ¬LiveCall evidence.program evidence.table command sub) ∨
          ∃ proto, protos[sub]? = some proto ∧ proto.isPrototyped = true) ∧
      (∀ callers : List Nat, callers.Perm evidence.program.subroutines → ∃ others,
        callers.foldlM (walk evidence protos) [] = .ok others ∧
          ∀ sub, List.lookup sub others = List.lookup sub estimates) ∧
      ∀ sub (callers : List Nat), callers.Perm (evidence.calls.callers sub) → ∃ others,
        callers.foldlM (walk evidence protos) [] = .ok others ∧
          List.lookup sub others = List.lookup sub estimates := by
  obtain ⟨estimates, estimated, found⟩ := foldlM_walk known built protos
    evidence.program.subroutines []
  have alone : ∀ sub (callers : List Nat), callers.Perm (evidence.calls.callers sub) → ∃ others,
      callers.foldlM (walk evidence protos) [] = .ok others ∧
        List.lookup sub others = List.lookup sub estimates := by
    intro sub callers perm
    obtain ⟨others, walked, merged⟩ := foldlM_walk known built protos callers []
    refine ⟨others, walked, ?_⟩
    rw [merged, found, SlotEstimates.foldl_merge_perm (perm.map _)]
    exact foldl_callers known built protos sub
  refine ⟨estimates, estimated, fun sub => ?_, fun sub => ?_, fun callers perm => ?_, alone⟩
  · obtain ⟨others, walked, same⟩ := alone sub _ (.refl _)
    rw [estimateFor, walked, ← same]
    rfl
  · have shows := fun caller => (walk_spec known built protos caller).2 sub
    rw [found, SlotEstimates.foldl_merge_eq_none_iff, List.lookup_nil]
    simp only [true_and, List.forall_mem_map, shows, Program.subroutines, List.mem_range]
    constructor
    · intro silent
      refine or_iff_not_imp_right.mpr fun unsettled command live => ?_
      have owned := Program.owner_lt live.inside
      exact (silent _ owned).resolve_right unsettled command (Program.mem_body_owner live.inside) live
    · intro absent caller _
      exact absent.imp_left fun none command _ => none command
  · obtain ⟨others, walked, merged⟩ := foldlM_walk known built protos callers []
    refine ⟨others, walked, fun sub => ?_⟩
    rw [merged, found, SlotEstimates.foldl_merge_perm (perm.map _)]

/-- A subroutine that pushes two numbers and calls another one, which removes them. -/
def handing : Program :=
  .ofNonempty
    [[⟨13, .constant (.int 1)⟩, ⟨19, .constant (.int 2)⟩, ⟨25, .jump .call 8⟩,
        ⟨31, .simple .ret .void⟩],
      [⟨33, ⟨.moveStack, .void, .offset (-8)⟩⟩, ⟨39, .simple .ret .void⟩]] (by simp)

/-- The call in it. -/
def handingGraph : Digraph Nat :=
  ⟨#[[(1, 2)], []], #[[], [(0, 2)]], 1⟩

/-- What is known about it, with no action in the catalog. -/
def handingEvidence : Evidence where
  program := handing
  table := Liveness.markedTable handing (Array.replicate 6 true)
  calls := ⟨handingGraph, #[none, none, some 1, none, none, none], handingGraph.components⟩
  catalog := .empty

/-- The two numbers are counted. -/
theorem estimates_agree_handing :
    CallGraph.build handingEvidence.program handingEvidence.table = .ok handingEvidence.calls ∧
    ∃ estimates, estimate handingEvidence #[{}, {}] = .ok estimates ∧
      List.lookup 1 estimates = some 2 ∧
      estimateFor handingEvidence #[{}, {}] 1 = .ok (some 2) ∧
      ∃ others, [1, 0].foldlM (walk handingEvidence #[{}, {}]) [] = .ok others ∧
        List.lookup 1 others = some 2 := by
  have known : handingEvidence.table.IsKnown handingEvidence.program :=
    FlowTable.isKnown_markedTable _ _
  have built : CallGraph.build handingEvidence.program handingEvidence.table =
    .ok handingEvidence.calls := rfl
  have counted : estimate handingEvidence #[{}, {}] = .ok [(1, 2)] := by decide
  obtain ⟨estimates, estimated, alone, -, orders, -⟩ := estimates_agree known built #[{}, {}]
  obtain rfl : [(1, 2)] = estimates := Except.ok.inj (counted.symm.trans estimated)
  obtain ⟨others, walked, same⟩ := orders [1, 0] (.swap 0 1 [])
  exact ⟨built, _, estimated, rfl, alone 1, others, walked, same 1⟩

end CallSites
end NwScript
