import NwScript.Proofs.DecisionTrees
import NwScript.Proofs.WalkTotal

/-!
# The search for a path

The walks through a subroutine are the paths of one decision tree.  The search makes these walks one
after the other, falling through before jumping, until one completes a prototype, its budget is spent,
or no path is left.  So it finds what the first completing path within the budget gives.
-/

namespace NwScript
namespace TypingContext

open Decision (nextPath)
open DecisionQueue (replaying)

variable {context : TypingContext} {globalsOnly : Bool}

/-! ## The decision tree of a subroutine -/

/-- Where walks go on, if there is an instruction of the subroutine. -/
def onward (context : TypingContext) (rest : Nat → DecisionTree (Except Fault WalkResult)) :
    Except Fault (Option Nat) → DecisionTree (Except Fault WalkResult)
  | .error fault => .leaf (.error fault)
  | .ok none => .leaf (.ok .failed)
  | .ok (some next) => if context.program.owner next = context.sub then rest next
      else .leaf (.ok .failed)

/-- The walks that go on from an instruction for at most `steps` more instructions. -/
def walksFrom (context : TypingContext) (globalsOnly : Bool) :
    (steps : Nat) → Option Nat → TypeTrace → DecisionTree (Except Fault WalkResult)
  | _, none, _ => .leaf (.ok .failed)
  | 0, some _, _ => .leaf (.ok .failed)
  | steps + 1, some command, trace =>
      match trace.step context globalsOnly command with
      | .error fault => .leaf (.error fault)
      | .ok (.next, trace) =>
          context.onward (fun next => walksFrom context globalsOnly steps (some next) trace)
            (.ok (context.program.next? command))
      | .ok (.goto destination, trace) =>
          context.onward (fun next => walksFrom context globalsOnly steps (some next) trace)
            (.ok (some destination))
      | .ok (.branch jump, trace) =>
          .node jump
            (context.onward (fun next => walksFrom context globalsOnly steps (some next) trace)
              (.ok (context.program.next? jump)))
            (context.onward (fun next => walksFrom context globalsOnly steps (some next) trace)
              (context.table.destination jump))
      | .ok (flow, trace) => .leaf (.ok (ending globalsOnly trace flow))

/-- All walks through the subroutine. -/
def walks (context : TypingContext) (globalsOnly : Bool) : DecisionTree (Except Fault WalkResult) :=
  context.walksFrom globalsOnly context.stepLimit (context.program.body context.sub).head? {}

/-- What a walk gives and the queue that it leaves. -/
def report (went : Except Fault WalkResult × DecisionQueue) :
    Except Fault (WalkResult × DecisionQueue) :=
  went.1.map (·, went.2)

theorem report_eq_ok {went : Except Fault WalkResult × DecisionQueue} {result : WalkResult}
    {queue : DecisionQueue} : report went = .ok (result, queue) ↔ went = (.ok result, queue) := by
  obtain ⟨_ | ended, walked⟩ := went <;> simp [report, Except.map]

/-- A walk goes down the tree as the queue says. -/
theorem walkFrom_eq (steps : Nat) (command : Option Nat) (trace : TypeTrace)
    (queue : DecisionQueue) :
    context.walkFrom globalsOnly steps command trace queue =
      report ((context.walksFrom globalsOnly steps command trace).follow queue) := by
  induction steps generalizing command trace queue with
  | zero => cases command <;> rfl
  | succ steps induction =>
      cases command with
      | none => rfl
      | some command =>
          have going : ∀ (trace : TypeTrace) (queue : DecisionQueue) (next : Nat),
              (if context.program.owner next = context.sub then
                  context.walkFrom globalsOnly steps (some next) trace queue
                else .ok (.failed, queue)) =
                report ((context.onward
                  (fun next => context.walksFrom globalsOnly steps (some next) trace)
                  (.ok (some next))).follow queue) := by
            intro trace queue next
            rw [onward]
            split
            · exact induction _ _ _
            · rfl
          rw [walkFrom, walksFrom]
          cases stepped : trace.step context globalsOnly command with
          | error fault => rfl
          | ok pair =>
              obtain ⟨flow, changed⟩ := pair
              simp only [bind, Except.bind]
              cases flow with
              | next =>
                  cases ahead : context.program.next? command with
                  | none => simp only [successor, ahead]; rfl
                  | some next => simp only [successor, ahead]; exact going changed queue next
              | goto destination => exact going changed queue destination
              | branch jump =>
                  by_cases taken : (queue.decide jump).1 = true
                  · rw [DecisionTree.follow, if_pos taken]
                    simp only [successor, bind, Except.bind, if_pos taken]
                    cases context.table.destination jump with
                    | error fault => rfl
                    | ok target =>
                        cases target with
                        | none => rfl
                        | some next => exact going changed (queue.decide jump).2 next
                  · rw [DecisionTree.follow, if_neg taken]
                    simp only [successor, bind, Except.bind, if_neg taken]
                    cases context.program.next? jump with
                    | none => rfl
                    | some next => exact going changed (queue.decide jump).2 next
              | ret => rfl
              | saveBase => rfl
              | blocked callee => rfl
              | stuck => rfl

theorem walk_eq (queue : DecisionQueue) :
    context.walk globalsOnly queue = report ((context.walks globalsOnly).follow queue) :=
  walkFrom_eq _ _ _ _

/-- A walk makes at most one decision a step, which bounds the number of paths. -/
theorem length_walksFrom_le (steps : Nat) (command : Option Nat) (trace : TypeTrace) :
    (context.walksFrom globalsOnly steps command trace).paths.length ≤ Nat.pow 2 steps := by
  induction steps generalizing command trace with
  | zero => cases command <;> exact Nat.le_refl 1
  | succ steps induction =>
      have single : 1 ≤ Nat.pow 2 steps := Nat.one_le_two_pow
      have double : Nat.pow 2 (steps + 1) = Nat.pow 2 steps + Nat.pow 2 steps := Nat.two_pow_succ steps
      have going : ∀ trace target, (context.onward
          (fun next => context.walksFrom globalsOnly steps (some next) trace)
          target).paths.length ≤ Nat.pow 2 steps := by
        intro trace target
        unfold onward
        split
        · exact single
        · exact single
        · split
          · exact induction _ _
          · exact single
      cases command with
      | none => exact Nat.one_le_two_pow
      | some command =>
          rw [walksFrom]
          split
          · exact Nat.one_le_two_pow
          · exact (going _ _).trans (by omega)
          · exact (going _ _).trans (by omega)
          · rw [DecisionTree.paths, List.length_append, List.length_map, List.length_map, double]
            exact Nat.add_le_add (going _ _) (going _ _)
          · exact Nat.one_le_two_pow

/-! ## The search along the paths -/

/-- The complete decision sequences, falling through before jumping, and how the walks along them
end. -/
def paths (context : TypingContext) : List (List Decision × Except Fault WalkResult) :=
  (context.walks false).paths

/-- The first paths, as many as a budget admits, and one at least. -/
def admitted (context : TypingContext) : Option Nat → List (List Decision × Except Fault WalkResult)
  | none => context.paths
  | some limit => context.paths.take (max limit 1)

/-- The outcome of a walk that completes a prototype. -/
def outcome? : Except Fault WalkResult → Option WalkOutcome
  | .ok (.complete outcome) => some outcome
  | _ => none

/-- The search along some paths: how it ends, and how many decisions it has queued by then. -/
def search (cap : Nat) : (queued : Nat) → (waiting : Option Nat) →
    List (List Decision × Except Fault WalkResult) → Except Fault (PathResult × Nat)
  | queued, waiting, [] => .ok (.blocked waiting, queued)
  | _, _, (_, .error fault) :: _ => .error fault
  | queued, waiting, (path, .ok result) :: later =>
      if cap < queued + Decision.cost path then .ok (.limitExceeded, queued + Decision.cost path)
      else
        match outcome? (.ok result) with
        | some outcome => .ok (.found outcome, queued + Decision.cost path)
        | none => search cap (queued + Decision.cost path) (waitingOn waiting result) later

/-- The paths that a budget leaves after some walks. -/
def affordable {α : Type} (budget : Option Nat) (attempts : Nat) (paths : List α) : List α :=
  match budget with
  | none => paths
  | some limit => paths.take (max limit 1 - attempts)

theorem affordable_nil {α : Type} (budget : Option Nat) (attempts : Nat) :
    affordable budget attempts ([] : List α) = [] := by
  cases budget with
  | none => rfl
  | some limit => exact List.take_nil

theorem affordable_cons {α : Type} {budget : Option Nat} {attempts : Nat}
    (remaining : ∀ limit, budget = some limit → attempts < max limit 1) (path : α) (later : List α) :
    affordable budget attempts (path :: later) = path :: affordable budget (attempts + 1) later := by
  cases budget with
  | none => rfl
  | some limit =>
      have positive := remaining limit rfl
      rw [affordable, affordable, show max limit 1 - attempts = max limit 1 - (attempts + 1) + 1 by
        omega, List.take_succ_cons]

/-- Once the attempts reach the budget, it leaves nothing. -/
theorem affordable_eq_nil {α : Type} {budget : Option Nat} {attempts : Nat}
    (spent : budget.any (· ≤ attempts + 1) = true) (paths : List α) :
    affordable budget (attempts + 1) paths = [] := by
  cases budget with
  | none => cases spent
  | some limit =>
      have reached : limit ≤ attempts + 1 := of_decide_eq_true spent
      rw [affordable, show max limit 1 - (attempts + 1) = 0 by omega, List.take_zero]

/-- The search from a queue goes along the paths that begin with its decisions or come behind them. -/
theorem exploreFrom_eq (budget : Option Nat) (cap attempts queued : Nat) (waiting : Option Nat)
    {pending : List Decision} (fits : (context.walks false).Fits pending)
    (ends : ∀ decision ∈ pending.getLast?, decision.taken = true)
    (remaining : ∀ limit, budget = some limit → attempts < max limit 1) :
    (context.exploreFrom budget cap attempts queued waiting (replaying [] pending)).map
        (fun exploration => (exploration.result, exploration.queued)) =
      search cap queued waiting
        (affordable budget attempts ((context.walks false).pathsFrom pending)) := by
  obtain ⟨left, bound⟩ : ∃ left, left = cap - queued := ⟨_, rfl⟩
  induction left using Nat.strong_induction_on generalizing attempts queued waiting pending with
  | _ left induction =>
      obtain ⟨listed, following⟩ := DecisionTree.pathsFrom_eq_cons fits
      obtain ⟨behind, same, fallen⟩ := DecisionTree.first_eq_append fits
      have went : context.walk false (replaying [] pending).rewind = report
          (((context.walks false).first pending).2,
            replaying ((context.walks false).first pending).1 []) := by
        rw [walk_eq]
        exact congrArg report (DecisionTree.follow_eq_first [] fits)
      have turned := DecisionQueue.backtrack_eq
        (replaying ((context.walks false).first pending).1 [])
      rw [listed, affordable_cons remaining, exploreFrom, went]
      generalize (context.walks false).first pending = leaf at *
      obtain ⟨path, result⟩ := leaf
      have added : max 1 ((replaying path []).length - (replaying [] pending).length) =
          Decision.cost path := by
        dsimp only at same
        rw [same, Decision.cost, Decision.fresh_append ends fallen]
        simp [replaying, DecisionQueue.length]
      cases result with
      | error fault => rfl
      | ok result =>
          dsimp only [report, Except.map, bind, Except.bind]
          rw [added, search]
          by_cases limited : cap < queued + Decision.cost path
          · rw [if_pos limited, if_pos limited]
            rfl
          · rw [if_neg limited, if_neg limited]
            rcases result with outcome | types | callee | _
            case complete => rfl
            all_goals
              dsimp only [outcome?]
              by_cases spent : budget.any (· ≤ attempts + 1) = true
              · rw [if_pos spent, affordable_eq_nil spent]
                rfl
              · rw [if_neg spent, turned]
                have still : ∀ limit, budget = some limit → attempts + 1 < max limit 1 := by
                  rintro limit rfl
                  have less : ¬limit ≤ attempts + 1 := fun reached => spent (decide_eq_true reached)
                  omega
                cases found : nextPath path with
                | none =>
                    simp only [replaying, List.append_nil, found, Option.elim, affordable_nil]
                    rfl
                | some next =>
                    have positive : 1 ≤ Decision.cost path := Nat.le_max_left 1 _
                    have less : cap - (queued + Decision.cost path) < left := by omega
                    have later := fun waiting => induction _ less (attempts + 1) _ waiting
                      (following next found) (Decision.taken_of_nextPath found) still rfl
                    simp only [replaying, List.append_nil, found, Option.elim]
                    exact later _

/-- The search goes along the admitted paths. -/
theorem explore_eq (budget : Option Nat) (cap queued : Nat) :
    (context.explore budget cap queued .empty).map
        (fun exploration => (exploration.result, exploration.queued)) =
      search cap queued none (context.admitted budget) := by
  have all := context.exploreFrom_eq budget cap 0 queued none (DecisionTree.fits_nil _) (by simp)
    (by omega)
  rw [DecisionTree.pathsFrom_nil] at all
  cases budget <;> exact all

/-- The search for the globals tries each path once, so more walks make no difference. -/
theorem findGlobals_of_le (cap : Nat) {walks : Nat} {pending : List Decision}
    (fits : (context.walks true).Fits pending)
    (enough : ((context.walks true).pathsFrom pending).length ≤ walks) :
    context.findGlobals cap walks (replaying [] pending) =
      context.findGlobals cap ((context.walks true).pathsFrom pending).length
        (replaying [] pending) := by
  induction walks generalizing pending with
  | zero => rw [Nat.le_zero.mp enough]
  | succ walks induction =>
      obtain ⟨listed, following⟩ := DecisionTree.pathsFrom_eq_cons fits
      have went : context.walk true (replaying [] pending).rewind = report
          (((context.walks true).first pending).2,
            replaying ((context.walks true).first pending).1 []) := by
        rw [walk_eq]
        exact congrArg report (DecisionTree.follow_eq_first [] fits)
      have turned := DecisionQueue.backtrack_eq
        (replaying ((context.walks true).first pending).1 [])
      rw [listed, List.length_cons] at enough ⊢
      rw [findGlobals, findGlobals, went]
      generalize (context.walks true).first pending = leaf at *
      obtain ⟨path, result⟩ := leaf
      cases result with
      | error fault => rfl
      | ok result =>
          dsimp only [report, Except.map, bind, Except.bind]
          rcases result with outcome | types | callee | _
          case globals => rfl
          case blocked => rfl
          all_goals
            dsimp only
            split
            · rfl
            · rw [turned]
              cases found : nextPath path with
              | none => simp only [replaying, List.append_nil, found, Option.elim]
              | some next =>
                  have later := induction (following next found)
                  simp only [found, Option.elim] at enough
                  simp only [replaying, List.append_nil, found, Option.elim]
                  exact later (Nat.le_of_succ_le_succ enough)

/-! ## What the search finds -/

/-- Where some path completes a prototype, the search ends with the outcome of the first one. -/
theorem search_of_completing {cap queued total : Nat} {waiting : Option Nat}
    {paths : List (List Decision × Except Fault WalkResult)} {result : PathResult}
    {outcome : WalkOutcome} (searched : search cap queued waiting paths = .ok (result, total))
    (decided : result ≠ .limitExceeded) (first : paths.findSome? (outcome? ·.2) = some outcome) :
    result = .found outcome := by
  induction paths generalizing queued waiting with
  | nil => cases first
  | cons entry later induction =>
      obtain ⟨path, ended⟩ := entry
      cases ended with
      | error fault => cases searched
      | ok ended =>
          rw [search] at searched
          rw [List.findSome?_cons] at first
          split at searched
          · cases searched
            exact absurd rfl decided
          · cases completed : outcome? (.ok ended) with
            | some given =>
                simp only [completed] at searched first
                cases searched
                cases first
                rfl
            | none =>
                simp only [completed] at searched first
                exact induction searched first

/-- Where no path completes a prototype, the search goes along all of them. -/
theorem search_of_not_completing {cap queued total : Nat} {waiting : Option Nat}
    {paths : List (List Decision × Except Fault WalkResult)} {result : PathResult}
    (searched : search cap queued waiting paths = .ok (result, total))
    (decided : result ≠ .limitExceeded) (none_completes : paths.findSome? (outcome? ·.2) = none) :
    ∃ ends : List WalkResult, paths.map (·.2) = ends.map .ok ∧
      result = .blocked (ends.foldl waitingOn waiting) ∧
      total = paths.foldl (fun total path => total + Decision.cost path.1) queued := by
  induction paths generalizing queued waiting with
  | nil =>
      cases searched
      exact ⟨[], rfl, rfl, rfl⟩
  | cons entry later induction =>
      obtain ⟨path, ended⟩ := entry
      cases ended with
      | error fault => cases searched
      | ok ended =>
          rw [search] at searched
          rw [List.findSome?_cons] at none_completes
          split at searched
          · cases searched
            exact absurd rfl decided
          · cases completed : outcome? (.ok ended) with
            | some given =>
                simp only [completed] at none_completes
                cases none_completes
            | none =>
                simp only [completed] at searched none_completes
                obtain ⟨ends, same, blocked, counted⟩ := induction searched none_completes
                exact ⟨ended :: ends, congrArg (_ :: ·) same, blocked, counted⟩

/-- A search that finds a prototype also finds it within a larger budget. -/
theorem exploreFrom_mono {budget larger : Option Nat}
    (wider : ∀ limit, larger = some limit → ∃ less, budget = some less ∧ less ≤ limit)
    {cap attempts queued : Nat} {waiting : Option Nat} {queue : DecisionQueue}
    {exploration : Exploration} {outcome : WalkOutcome}
    (explored : context.exploreFrom budget cap attempts queued waiting queue = .ok exploration)
    (found : exploration.result = .found outcome) :
    context.exploreFrom larger cap attempts queued waiting queue = .ok exploration := by
  obtain ⟨left, bound⟩ : ∃ left, left = cap - queued := ⟨_, rfl⟩
  induction left using Nat.strong_induction_on generalizing attempts queued waiting queue with
  | _ left induction =>
      rw [exploreFrom] at explored ⊢
      cases went : context.walk false queue.rewind with
      | error fault =>
          rw [went] at explored
          cases explored
      | ok pair =>
          obtain ⟨result, walked⟩ := pair
          simp only [went, bind, Except.bind] at explored ⊢
          split at explored
          · rw [if_pos ‹_›]
            exact explored
          · rename_i within
            rw [if_neg within]
            split at explored
            · exact explored
            · split at explored
              · cases explored
                cases found
              · rename_i allowed
                have still : ¬larger.any (· ≤ attempts + 1) = true := by
                  intro spent
                  cases larger with
                  | none => cases spent
                  | some limit =>
                      obtain ⟨less, rfl, below⟩ := wider limit rfl
                      exact allowed (decide_eq_true (below.trans (of_decide_eq_true spent)))
                rw [if_neg still]
                split at explored
                · rename_i turned
                  have less : cap - (queued + max 1 (walked.length - queue.length)) < left := by omega
                  exact induction _ less explored rfl
                · cases explored
                  cases found

/-- The search for a prototype along the complete decision sequences: they are the decisions that drive
a walk to its end and are all used up there, they are ordered by falling through before jumping, and the
search finds what the first one of the admitted sequences that completes a prototype gives.  It is blocked
when none of them does, after walking along every one; and a larger budget finds the same. -/
theorem explore_first_path (context : TypingContext) (budget : Option Nat) (cap queued : Nat) :
    (∀ path result, (path, .ok result) ∈ context.paths ↔
      context.walk false ⟨path.toArray, 0⟩ = .ok (result, ⟨path.toArray, path.length⟩)) ∧
    (context.paths.Pairwise fun earlier later => Decision.Precedes earlier.1 later.1) ∧
    (context.table.IsKnown context.program →
      ∃ exploration, context.explore budget cap queued .empty = .ok exploration) ∧
    ∀ exploration, context.explore budget cap queued .empty = .ok exploration →
      exploration.result ≠ .limitExceeded →
      (∀ outcome, exploration.result = .found outcome ↔
        (context.admitted budget).findSome? (outcome? ·.2) = some outcome) ∧
      (∀ callee, exploration.result = .blocked callee →
        ∃ ends : List WalkResult, (context.admitted budget).map (·.2) = ends.map .ok ∧
          (∀ outcome, .complete outcome ∉ ends) ∧ callee = ends.foldl waitingOn none ∧
          exploration.queued = (context.admitted budget).foldl
            (fun total path => total + Decision.cost path.1) queued) ∧
      ∀ outcome, exploration.result = .found outcome → ∀ larger : Option Nat,
        (∀ limit, larger = some limit → ∃ less, budget = some less ∧ less ≤ limit) →
        context.explore larger cap queued .empty = .ok exploration := by
  refine ⟨fun path result => ?_, DecisionTree.pairwise_paths _, fun known => ?_,
    fun exploration explored decided => ?_⟩
  · rw [paths, DecisionTree.mem_paths_iff]
    have start : replaying [] path = ⟨path.toArray, 0⟩ := rfl
    have arrival : replaying path [] = ⟨path.toArray, path.length⟩ := by
      rw [replaying, List.append_nil]
    rw [start, arrival, walk_eq, report_eq_ok]
  · obtain ⟨exploration, explored, _⟩ := exploreFrom_eq_ok known budget cap 0 queued none .empty
    exact ⟨exploration, explored⟩
  · have searched := context.explore_eq budget cap queued
    rw [explored] at searched
    cases first : (context.admitted budget).findSome? (outcome? ·.2) with
    | some outcome =>
        have found := search_of_completing searched.symm decided first
        refine ⟨fun other => ?_, fun callee blocked => ?_, fun outcome found larger wider => ?_⟩
        · rw [found, PathResult.found.injEq, Option.some.injEq]
        · rw [found] at blocked
          cases blocked
        · exact exploreFrom_mono wider explored found
    | none =>
        obtain ⟨ends, same, blocked, counted⟩ :=
          search_of_not_completing searched.symm decided first
        refine ⟨fun other => ?_, fun callee stopped => ?_, fun outcome found => ?_⟩
        · rw [blocked]
          simp
        · rw [blocked] at stopped
          refine ⟨ends, same, fun outcome listed => ?_, (PathResult.blocked.inj stopped).symm, counted⟩
          have completes : .ok (.complete outcome) ∈ ends.map (.ok : _ → Except Fault _) :=
            List.mem_map_of_mem listed
          rw [← same] at completes
          obtain ⟨entry, inside, equal⟩ := List.mem_map.mp completes
          have absent := List.findSome?_eq_none_iff.mp first entry inside
          rw [equal] at absent
          cases absent
        · rw [blocked] at found
          cases found

/-- A subroutine that calls itself unless its parameter is zero. -/
def recursing : Program :=
  .ofNonempty
    [[⟨13, ⟨.copyTop, .void, .stack (-4) 4⟩⟩, ⟨21, .jump .jumpZero 20⟩,
      ⟨27, ⟨.copyTop, .void, .stack (-4) 4⟩⟩, ⟨35, .jump .call (-22)⟩,
      ⟨41, ⟨.moveStack, .void, .offset (-4)⟩⟩, ⟨47, .simple .ret .void⟩]] (by simp)

/-- Walks through it while nothing is known about its prototype. -/
def recursingWalks : TypingContext where
  program := recursing
  table := Liveness.markedTable recursing (Array.replicate 6 true)
  calls := ⟨.discrete 1, #[none, none, none, some 0, none, none], [[0]]⟩
  catalog := .empty
  globals := #[]
  protos := #[{}]
  sub := 0

/-- What the path around the call shows. -/
def aroundCall : WalkOutcome where
  slots := [.int]
  groups := []
  returnType := .void
  returnDepth := none
  refinements := []
  heights := [(0, 0), (1, 1), (4, 0), (5, -1)]

/-- The call blocks the first path, and the second one completes a prototype. -/
theorem explore_recursingWalks : recursingWalks.explore (some 2) 3000 0 .empty =
    .ok ⟨.found aroundCall, ⟨#[⟨1, true⟩], 1⟩, 2⟩ := by
  have blocked : recursingWalks.walk false DecisionQueue.empty.rewind =
      .ok (.blocked 0, ⟨#[⟨1, false⟩], 1⟩) := rfl
  have passed : recursingWalks.walk false (DecisionQueue.rewind ⟨#[⟨1, true⟩], 0⟩) =
      .ok (.complete aroundCall, ⟨#[⟨1, true⟩], 1⟩) := rfl
  have turned : DecisionQueue.backtrack ⟨#[⟨1, false⟩], 1⟩ = (true, ⟨#[⟨1, true⟩], 0⟩) :=
    DecisionQueue.backtrack_eq _
  rw [explore, exploreFrom, blocked]
  simp only [bind, Except.bind, turned]
  rw [exploreFrom, passed]
  rfl

theorem explore_first_path_recursingWalks :
    (∃ exploration, recursingWalks.explore (some 2) 3000 0 .empty = .ok exploration) ∧
      (recursingWalks.admitted (some 2)).findSome? (outcome? ·.2) = some aroundCall ∧
      recursingWalks.explore none 3000 0 .empty =
        .ok ⟨.found aroundCall, ⟨#[⟨1, true⟩], 1⟩, 2⟩ := by
  obtain ⟨_, _, total, exact⟩ := explore_first_path recursingWalks (some 2) 3000 0
  obtain ⟨found, _, wider⟩ := exact _ explore_recursingWalks (by decide)
  exact ⟨total (FlowTable.isKnown_markedTable _ _), (found _).mp rfl, wider _ rfl none (by simp)⟩

end TypingContext
end NwScript
