import Mathlib
import NwScript.Proofs.ExplorationCap
import NwScript.Proofs.SingleRoutine

/-!
# The walks to the globals

The search for the globals goes along the paths of the initializer until one settles what they are.  It
gives up behind a path with more decisions than the cap allows, but it does not add up the decisions of
its walks as an exploration does.  Among the paths of a binary tree, those with at most as many decisions
as the cap number two to the power of the cap, and the search may make all these walks.
-/

namespace NwScript

namespace DecisionTree

variable {α : Type}

/-- A path behind a decision is longer by one. -/
theorem short_of_under {decision : Decision} {front : List (List Decision × α)} {bound : Nat}
    (short : ∀ path ∈ (front.map (under decision)).dropLast, path.1.length ≤ bound + 1) :
    ∀ path ∈ front.dropLast, path.1.length ≤ bound := by
  intro path listed
  have longer := short (under decision path) (by
    rw [← List.map_dropLast]
    exact List.mem_map_of_mem listed)
  exact Nat.le_of_succ_le_succ longer

/-- Every path of a command that branches makes a decision. -/
theorem length_pos_of_mem_paths {command : Nat} {falls takes : DecisionTree α}
    {path : List Decision × α} (listed : path ∈ (node command falls takes).paths) :
    0 < path.1.length := by
  rcases List.mem_append.mp listed with fallen | taken
  · obtain ⟨rest, -, rfl⟩ := List.mem_map.mp fallen
    exact Nat.succ_pos _
  · obtain ⟨rest, -, rfl⟩ := List.mem_map.mp taken
    exact Nat.succ_pos _

/-- Paths of which all but the last one have no more decisions than a bound number at most two to the
power of the bound. -/
theorem length_le_two_pow {tree : DecisionTree α} {bound : Nat} {front back : List (List Decision × α)}
    (split : tree.paths = front ++ back)
    (short : ∀ path ∈ front.dropLast, path.1.length ≤ bound) : front.length ≤ 2 ^ bound := by
  induction tree generalizing bound front back with
  | leaf result =>
      have single : front.length + back.length = 1 := by
        rw [← List.length_append, ← split, paths, List.length_singleton]
      exact (show front.length ≤ 1 by omega).trans Nat.one_le_two_pow
  | node command falls takes falls_le takes_le =>
      cases bound with
      | zero =>
          -- A path behind a jump has a decision, so none but the last one is short.
          have none_short : front.dropLast = [] := by
            refine List.eq_nil_iff_forall_not_mem.mpr fun path listed => ?_
            have member : path ∈ (node command falls takes).paths := by
              rw [split]
              exact List.mem_append_left _ (List.dropLast_subset _ listed)
            exact Nat.not_succ_le_zero 0 ((length_pos_of_mem_paths member).trans_le (short path listed))
          have length := congrArg List.length none_short
          rw [List.length_dropLast, List.length_nil] at length
          exact Nat.le_of_sub_eq_zero length
      | succ bound =>
          have double : 2 ^ (bound + 1) = 2 ^ bound + 2 ^ bound := Nat.two_pow_succ bound
          rw [paths] at split
          rcases List.append_eq_append_iff.mp split with ⟨more, behind, before⟩ | ⟨more, before, -⟩
          · obtain ⟨some_takes, rest, takes_split, rfl, -⟩ := List.map_eq_append_iff.mp before
            subst behind
            by_cases nothing : some_takes = []
            · subst nothing
              rw [List.map_nil, List.append_nil] at short ⊢
              have few := falls_le (List.append_nil _).symm (short_of_under short)
              rw [List.length_map]
              omega
            · rw [List.dropLast_append_of_ne_nil (by simpa using nothing)] at short
              have few := falls_le (List.append_nil _).symm (short_of_under fun path listed =>
                short path (List.mem_append_left _ (List.dropLast_subset _ listed)))
              have others := takes_le takes_split (short_of_under fun path listed =>
                short path (List.mem_append_right _ listed))
              rw [List.length_append, List.length_map, List.length_map]
              omega
          · obtain ⟨some_falls, rest, falls_split, rfl, -⟩ := List.map_eq_append_iff.mp before
            have few := falls_le falls_split (short_of_under short)
            rw [List.length_map]
            omega

end DecisionTree

namespace TypingContext

open Decision (nextPath)
open DecisionQueue (replaying)

variable {context : TypingContext} {cap : Nat}

/-! ## The loop of the search -/

/-- The search goes back to the decision flipped last, unless the walk made more decisions than the cap
or none is left to flip. -/
def turnBack (cap : Nat) (walked : DecisionQueue) : GlobalTypes ⊕ DecisionQueue :=
  if cap < walked.length then .inl .missing
  else
    match walked.backtrack with
    | (true, next) => .inr next
    | (false, _) => .inl .missing

/-- What follows a walk towards the globals. -/
def weigh (cap : Nat) (result : WalkResult) (walked : DecisionQueue) : GlobalTypes ⊕ DecisionQueue :=
  match result with
  | .globals types => .inl (.known types)
  | .blocked callee => .inl (.blocked callee)
  | _ => turnBack cap walked

/-- The loop of the search for the globals, cut off after some walks: the instructions that each walk
simulated, and what the search gave if it has ended by then. -/
def surveyed (context : TypingContext) (cap : Nat) :
    (walks : Nat) → DecisionQueue → List (List Nat) × Option (Except Fault GlobalTypes)
  | 0, _ => ([], none)
  | walks + 1, queue =>
      match context.simulatedFrom true context.stepLimit (context.program.body context.sub).head? {}
          queue.rewind with
      | (commands, .error fault) => ([commands], some (.error fault))
      | (commands, .ok (result, walked)) =>
          match weigh cap result walked with
          | .inl types => ([commands], some (.ok types))
          | .inr next =>
              let (later, ended) := surveyed context cap walks next
              (commands :: later, ended)

/-- One turn of the search is a walk and what follows it. -/
theorem findGlobals_succ (walks : Nat) (queue : DecisionQueue) :
    context.findGlobals cap (walks + 1) queue = (do
      let (result, walked) ← context.walk true queue.rewind
      match weigh cap result walked with
      | .inl types => .ok types
      | .inr next => context.findGlobals cap walks next) := by
  rw [findGlobals]
  refine bind_congr fun went => ?_
  obtain ⟨result, walked⟩ := went
  cases result with
  | globals types => rfl
  | blocked callee => rfl
  | _ =>
      dsimp only [weigh, turnBack]
      split
      · rfl
      · obtain ⟨flipped, next⟩ := walked.backtrack
        cases flipped <;> rfl

/-- What the loop ends with is what the search gives. -/
theorem findGlobals_of_surveyed {walks : Nat} {queue : DecisionQueue} {given : Except Fault GlobalTypes}
    (ended : (context.surveyed cap walks queue).2 = some given) :
    context.findGlobals cap walks queue = given := by
  induction walks generalizing queue with
  | zero => cases ended
  | succ walks induction =>
      have same : (context.simulatedFrom true context.stepLimit
          (context.program.body context.sub).head? {} queue.rewind).2 = context.walk true queue.rewind :=
        simulatedFrom_snd _ _ _ _
      rw [surveyed] at ended
      rw [findGlobals_succ, ← same]
      generalize context.simulatedFrom true context.stepLimit (context.program.body context.sub).head? {}
        queue.rewind = walk at ended
      obtain ⟨commands, fault | ⟨result, walked⟩⟩ := walk
      · exact Option.some.inj ended
      · simp only [bind, Except.bind]
        cases weighed : weigh cap result walked with
        | inl types =>
            simp only [weighed] at ended
            exact Option.some.inj ended
        | inr next =>
            simp only [weighed] at ended
            exact induction ended

/-- Once the loop has ended, more walks make no difference. -/
theorem surveyed_add {walks : Nat} {queue : DecisionQueue}
    (ended : (context.surveyed cap walks queue).2 ≠ none) (extra : Nat) :
    context.surveyed cap (walks + extra) queue = context.surveyed cap walks queue := by
  induction walks generalizing queue with
  | zero => exact absurd rfl ended
  | succ walks induction =>
      rw [Nat.add_right_comm]
      rw [surveyed] at ended ⊢
      rw [surveyed]
      generalize context.simulatedFrom true context.stepLimit (context.program.body context.sub).head? {}
        queue.rewind = walk at ended ⊢
      obtain ⟨commands, fault | ⟨result, walked⟩⟩ := walk
      · rfl
      · cases weighed : weigh cap result walked with
        | inl types => simp only [weighed]
        | inr next =>
            simp only [weighed] at ended ⊢
            rw [induction ended]

/-! ## The paths that are tried -/

/-- The complete decision sequences of the initializer, falling through before jumping, and how the walks
along them end. -/
def globalPaths (context : TypingContext) : List (List Decision × Except Fault WalkResult) :=
  (context.walks true).paths

/-- The search ends behind a path: it sets up the globals, waits for a callee, meets a fault, or has more
decisions than the cap. -/
def settles (cap : Nat) (path : List Decision × Except Fault WalkResult) : Bool :=
  match path.2 with
  | .ok (.complete _) | .ok .failed => cap < path.1.length
  | _ => true

/-- The paths that the search goes along. -/
def tried (cap : Nat) (paths : List (List Decision × Except Fault WalkResult)) :
    List (List Decision × Except Fault WalkResult) :=
  paths.take (paths.findIdx (settles cap) + 1)

theorem tried_cons (path : List Decision × Except Fault WalkResult)
    (later : List (List Decision × Except Fault WalkResult)) :
    tried cap (path :: later) = path :: if settles cap path then [] else tried cap later := by
  rw [tried, List.findIdx_cons]
  cases settles cap path <;> rfl

/-- Paths are tried as long as they settle nothing, so all but the last one are short. -/
theorem short_of_tried {paths : List (List Decision × Except Fault WalkResult)} :
    ∀ path ∈ (tried cap paths).dropLast, path.1.length ≤ cap := by
  induction paths with
  | nil => exact fun _ listed => nomatch listed
  | cons path later induction =>
      rw [tried_cons]
      split
      · exact fun _ listed => nomatch listed
      · rename_i unsettled
        intro other listed
        cases rest : tried cap later with
        | nil =>
            rw [rest] at listed
            cases listed
        | cons next behind =>
            rw [rest, List.dropLast_cons_cons, ← rest] at listed
            rcases List.mem_cons.mp listed with rfl | among
            · rw [settles] at unsettled
              split at unsettled
              · exact Nat.not_lt.mp fun longer => unsettled (decide_eq_true longer)
              · exact Nat.not_lt.mp fun longer => unsettled (decide_eq_true longer)
              · exact absurd rfl unsettled
            · exact induction other among

/-- Few paths are tried if there are few, or if one of the first settles something. -/
theorem length_tried_le_iff {paths : List (List Decision × Except Fault WalkResult)} (bound : Nat) :
    (tried cap paths).length ≤ bound + 1 ↔
      paths.length ≤ bound + 1 ∨ ∃ path ∈ paths.take (bound + 1), settles cap path := by
  induction paths generalizing bound with
  | nil => simp [tried]
  | cons path later induction =>
      rw [tried_cons]
      cases settled : settles cap path with
      | true => simp [settled]
      | false =>
          cases bound with
          | zero =>
              cases later with
              | nil => simp [tried]
              | cons next behind => simp [settled, tried_cons]
          | succ bound => simpa [settled] using induction bound

theorem length_tried_le (context : TypingContext) (cap : Nat) :
    (tried cap context.globalPaths).length ≤ 2 ^ min cap context.stepLimit := by
  have bounded : (tried cap context.globalPaths).length ≤ 2 ^ cap :=
    DecisionTree.length_le_two_pow (List.take_append_drop _ _).symm short_of_tried
  have stepped : (tried cap context.globalPaths).length ≤ 2 ^ context.stepLimit :=
    (List.length_take_le' _ _).trans (length_walksFrom_le _ _ _)
  rcases Nat.le_total cap context.stepLimit with less | less
  · rwa [Nat.min_eq_left less]
  · rwa [Nat.min_eq_right less]

theorem turnBack_replaying (path : List Decision) :
    turnBack cap (replaying path []) =
      if cap < path.length then .inl .missing
      else (nextPath path).elim (.inl .missing) fun next => .inr (replaying [] next) := by
  have counted : (replaying path []).length = path.length := by
    simp [replaying, DecisionQueue.length]
  have turned := DecisionQueue.backtrack_eq (replaying path [])
  rw [turnBack, counted, turned]
  refine if_congr Iff.rfl rfl ?_
  simp only [replaying, List.append_nil]
  cases nextPath path <;> rfl

/-- A path that settles something ends the search. -/
theorem weigh_of_settles {path : List Decision} {result : WalkResult}
    (settled : settles cap (path, .ok result)) :
    ∃ types, weigh cap result (replaying path []) = .inl types := by
  cases result with
  | globals types => exact ⟨.known types, rfl⟩
  | blocked callee => exact ⟨.blocked callee, rfl⟩
  | _ => exact ⟨.missing, (turnBack_replaying path).trans (if_pos (of_decide_eq_true settled))⟩

/-- Behind any other path the search goes on to the next one, if there is one. -/
theorem weigh_of_not_settles {path : List Decision} {result : WalkResult}
    (unsettled : ¬settles cap (path, .ok result)) :
    weigh cap result (replaying path []) =
      (nextPath path).elim (.inl .missing) fun next => .inr (replaying [] next) := by
  cases result with
  | globals types => exact absurd rfl unsettled
  | blocked callee => exact absurd rfl unsettled
  | _ =>
      exact (turnBack_replaying path).trans
        (if_neg fun longer => unsettled (decide_eq_true longer))

/-- The loop makes one walk along each path that is tried, and ends with the last one. -/
theorem surveyed_replaying {walks : Nat} {pending : List Decision}
    (fits : (context.walks true).Fits pending)
    (enough : (tried cap ((context.walks true).pathsFrom pending)).length ≤ walks) :
    (context.surveyed cap walks (replaying [] pending)).2 ≠ none ∧
      (context.surveyed cap walks (replaying [] pending)).1.length =
        (tried cap ((context.walks true).pathsFrom pending)).length := by
  induction walks generalizing pending with
  | zero =>
      obtain ⟨listed, -⟩ := DecisionTree.pathsFrom_eq_cons fits
      rw [listed, tried_cons] at enough
      exact absurd enough (Nat.not_succ_le_zero _)
  | succ walks induction =>
      obtain ⟨listed, following⟩ := DecisionTree.pathsFrom_eq_cons fits
      have went : (context.simulatedFrom true context.stepLimit
          (context.program.body context.sub).head? {} (replaying [] pending).rewind).2 =
          report (((context.walks true).first pending).2,
            replaying ((context.walks true).first pending).1 []) := by
        rw [simulatedFrom_snd]
        exact (walk_eq _).trans (congrArg report (DecisionTree.follow_eq_first [] fits))
      rw [listed, tried_cons] at enough ⊢
      rw [surveyed]
      generalize (context.walks true).first pending = leaf at *
      generalize context.simulatedFrom true context.stepLimit (context.program.body context.sub).head? {}
        (replaying [] pending).rewind = walk at went
      obtain ⟨path, result⟩ := leaf
      obtain ⟨commands, ended⟩ := walk
      dsimp only at went
      subst went
      cases result with
      | error fault => exact ⟨Option.some_ne_none _, rfl⟩
      | ok result =>
          dsimp only [report, Except.map]
          by_cases settled : settles cap (path, .ok result) = true
          · obtain ⟨types, weighed⟩ := weigh_of_settles settled
            rw [weighed, if_pos settled]
            exact ⟨Option.some_ne_none _, rfl⟩
          · rw [weigh_of_not_settles settled]
            rw [if_neg settled] at enough ⊢
            cases found : nextPath path with
            | none => exact ⟨Option.some_ne_none _, rfl⟩
            | some next =>
                rw [found] at enough
                obtain ⟨ended, counted⟩ := induction (following next found)
                  (Nat.le_of_succ_le_succ enough)
                exact ⟨ended, congrArg Nat.succ counted⟩

/-- The search for the globals has ended after as many walks as paths are tried. -/
theorem surveyed_tried (context : TypingContext) (cap : Nat) {walks : Nat}
    (enough : (tried cap context.globalPaths).length ≤ walks) :
    (context.surveyed cap walks .empty).2 = some (context.globalTypes cap) ∧
      (context.surveyed cap walks .empty).1.length = (tried cap context.globalPaths).length := by
  have start : (context.walks true).pathsFrom [] = context.globalPaths := DecisionTree.pathsFrom_nil _
  have every : (tried cap ((context.walks true).pathsFrom [])).length ≤
      (tried cap context.globalPaths).length := by rw [start]
  obtain ⟨ended, counted⟩ := context.surveyed_replaying (DecisionTree.fits_nil _) every
  rw [start] at counted
  change (context.surveyed cap _ .empty).2 ≠ none at ended
  have same : ∀ walks, (tried cap context.globalPaths).length ≤ walks →
      context.surveyed cap walks .empty =
        context.surveyed cap (tried cap context.globalPaths).length .empty := by
    intro walks enough
    obtain ⟨extra, rfl⟩ := Nat.exists_eq_add_of_le enough
    exact surveyed_add ended extra
  have stepped : (tried cap context.globalPaths).length ≤ Nat.pow 2 context.stepLimit :=
    (List.length_take_le' _ _).trans (length_walksFrom_le _ _ _)
  obtain ⟨given, found⟩ := Option.ne_none_iff_exists'.mp ended
  have result : context.globalTypes cap = given :=
    findGlobals_of_surveyed ((congrArg Prod.snd (same _ stepped)).trans found)
  rw [same _ enough, found, result]
  exact ⟨rfl, counted⟩

end TypingContext

/-! ## An initializer that takes every walk -/

namespace Layout

variable {program : Program} {table : FlowTable}

theorem findSaveBase_append {front : List Nat} (rest : List Nat)
    (plain : ∀ command ∈ front, program.opcode command ≠ .saveBase) :
    findSaveBase program table (front ++ rest) = findSaveBase program table rest := by
  induction front with
  | nil => rfl
  | cons command front induction =>
      rw [List.cons_append, findSaveBase, if_neg (plain command List.mem_cons_self)]
      exact induction fun other listed => plain other (List.mem_cons_of_mem _ listed)

/-- The globals are set up where the base pointer is saved. -/
theorem globals_of_detect {calls : CallGraph} {layout : Layout} {found : Option Nat}
    (detected : detect program table calls = .ok layout)
    (saved : findSaveBase program table program.commandNumbers = .ok found) :
    layout.globals = found.map program.owner := by
  unfold detect at detected
  rw [saved] at detected
  split at detected
  · cases detected
  · simp only [bind, Except.bind] at detected
    split at detected
    · cases detected
    · cases found with
      | none =>
          cases detected
          rfl
      | some command =>
          dsimp only at detected
          split at detected
          · cases detected
          · cases detected
            rfl

end Layout

/-- Tests of values, then an action that the catalog does not know, then the end of the globals. -/
def testingCode (tests : Nat) : List Instruction :=
  List.replicate tests (.jump .jumpZero 6) ++
    [⟨.action, .void, .action 0 0⟩, .simple .saveBase .int, .simple .ret .void]

/-- An initializer whose every path makes a number of decisions before it gets stuck. -/
def testing (tests : Nat) : Program :=
  .ofCode (testingCode tests) (by simp [testingCode])

section Testing

variable {tests : Nat}

theorem length_testingCode : (testingCode tests).length = tests + 3 := by
  simp [testingCode]

theorem isAlone_testing : (testing tests).IsAlone (testingCode tests) :=
  Program.isAlone_ofCode _ _

theorem instruction_test {command : Nat} (before : command < tests) :
    (testing tests).instruction command = .jump .jumpZero 6 := by
  refine isAlone_testing.instruction ?_
  rw [testingCode, List.getElem?_append_left (by simpa using before), List.getElem?_replicate,
    if_pos before]

theorem instruction_behind (place : Nat) {instruction : Instruction}
    (here : [⟨.action, .void, .action 0 0⟩, .simple .saveBase .int, .simple .ret .void][place]? =
      some instruction) : (testing tests).instruction (tests + place) = instruction := by
  refine isAlone_testing.instruction ?_
  rw [testingCode, List.getElem?_append_right (by simp)]
  simpa using here

theorem codeSize_tests {count : Nat} (before : count ≤ tests) :
    codeSize ((testingCode tests).take count) = 6 * count := by
  rw [testingCode, List.take_append_of_le_length (by simpa using before), List.take_replicate,
    Nat.min_eq_left before]
  induction count with
  | zero => rfl
  | succ count induction =>
      rw [List.replicate_succ, codeSize_cons, induction (by omega)]
      show 6 + 6 * count = 6 * (count + 1)
      omega

theorem destination_test {command : Nat} (before : command < tests) :
    Jumps.destination? (testing tests) command = some (command + 1) := by
  refine Program.destination?_eq_some isAlone_testing.increasing (by decide) (instruction_test before)
    ?_ ?_
  · rw [isAlone_testing.commandCount, length_testingCode]
    omega
  · rw [isAlone_testing.position (by rw [length_testingCode]; omega),
      isAlone_testing.position (by rw [length_testingCode]; omega), codeSize_tests before.le,
      codeSize_tests before]
    omega

theorem opcode_testing {command : Nat} (inside : command < (testing tests).commandCount) :
    command < tests ∧ (testing tests).opcode command = .jumpZero ∨
      command = tests ∧ (testing tests).opcode command = .action ∨
      command = tests + 1 ∧ (testing tests).opcode command = .saveBase ∨
      command = tests + 2 ∧ (testing tests).opcode command = .ret := by
  rw [isAlone_testing.commandCount, length_testingCode] at inside
  rcases Nat.lt_or_ge command tests with before | behind
  · exact .inl ⟨before, congrArg Instruction.opcode (instruction_test before)⟩
  · obtain ⟨place, rfl⟩ := Nat.exists_eq_add_of_le behind
    match place, inside with
    | 0, _ => exact .inr (.inl ⟨rfl, congrArg Instruction.opcode (instruction_behind 0 rfl)⟩)
    | 1, _ => exact .inr (.inr (.inl ⟨rfl, congrArg Instruction.opcode (instruction_behind 1 rfl)⟩))
    | 2, _ => exact .inr (.inr (.inr ⟨rfl, congrArg Instruction.opcode (instruction_behind 2 rfl)⟩))
    | place + 3, inside => omega

theorem allLand_testing (tests : Nat) : Jumps.AllLand (testing tests) :=
  Program.allLand fun command inside jumps => by
    rcases opcode_testing inside with ⟨before, -⟩ | ⟨-, other⟩ | ⟨-, other⟩ | ⟨-, other⟩
    · exact ⟨_, destination_test before⟩
    all_goals
      rw [other] at jumps
      cases jumps

/-- Every instruction but the last one goes on to the next, so none is dead. -/
theorem allLive_testing {live : Array Bool}
    (found : Liveness.liveSet (testing tests) (.resolved (testing tests)) = .ok live) :
    FlowTable.AllLive (testing tests) (Liveness.markedTable (testing tests) live) := by
  obtain ⟨_, again, _, _, marks⟩ := Liveness.liveSet_spec (testing tests)
  obtain rfl := Except.ok.inj (found.symm.trans again)
  refine Liveness.allLive_markedTable fun command inside => (marks command).mpr ?_
  rw [isAlone_testing.commandCount] at inside
  refine isAlone_testing.isReachable (fun command inside => ?_) inside
  rw [← isAlone_testing.commandCount] at inside
  rcases opcode_testing (Nat.lt_of_succ_lt inside) with ⟨-, here⟩ | ⟨-, here⟩ | ⟨-, here⟩ | ⟨last, -⟩
  · simp [here]
  · simp [here]
  · simp [here]
  · rw [isAlone_testing.commandCount, length_testingCode] at inside
    omega

/-- The base pointer is saved behind the action. -/
theorem findSaveBase_testing {table : FlowTable} (all : table.AllLive (testing tests)) :
    Layout.findSaveBase (testing tests) table (testing tests).commandNumbers =
      .ok (some (tests + 1)) := by
  have numbers : (testing tests).commandNumbers = List.range (tests + 1) ++ [tests + 1, tests + 2] := by
    rw [Program.commandNumbers, isAlone_testing.commandCount, length_testingCode, List.range_succ,
      List.range_succ, List.append_assoc]
    rfl
  rw [numbers, Layout.findSaveBase_append]
  · have here : (testing tests).opcode (tests + 1) = .saveBase :=
      congrArg Instruction.opcode (instruction_behind 1 rfl)
    have alive := all.alive (tests + 1) (by
      rw [isAlone_testing.commandCount, length_testingCode]
      omega)
    rw [Layout.findSaveBase, if_pos here, alive]
    rfl
  · intro command listed
    have before := List.mem_range.mp listed
    have inside : command < (testing tests).commandCount := by
      rw [isAlone_testing.commandCount, length_testingCode]
      omega
    rcases opcode_testing inside with ⟨-, here⟩ | ⟨-, here⟩ | ⟨here, -⟩ | ⟨here, -⟩
    · simp [here]
    · simp [here]
    · omega
    · omega

/-- The program is analyzed as an initializer of globals whose instructions are all live. -/
theorem exists_layout_testing (tests : Nat) :
    ∃ table calls layout, Analysis.flowTable (testing tests) = .ok table ∧
      CallGraph.build (testing tests) table = .ok calls ∧
      Layout.detect (testing tests) table calls = .ok layout ∧ layout.globals = some 0 ∧
      table.AllLive (testing tests) := by
  have counted : 0 < (testing tests).subroutineCount := by
    rw [isAlone_testing.subroutineCount]
    exact Nat.one_pos
  obtain ⟨live, found, flow⟩ :=
    Analysis.flowTable_eq_ok isAlone_testing.increasing (allLand_testing tests)
  have all := allLive_testing found
  have known := FlowTable.isKnown_markedTable (testing tests) live
  obtain ⟨calls, built⟩ := CallGraph.build_eq_ok known
  obtain ⟨layout, detected⟩ := Layout.detect_eq_ok known calls counted
  refine ⟨_, calls, layout, flow, built, detected, ?_, all⟩
  rw [Layout.globals_of_detect detected (findSaveBase_testing all), Option.map_some,
    isAlone_testing.owner (by
      rw [length_testingCode]
      omega)]

/-- A walk through it while nothing is known about prototypes and globals. -/
def testingWalks (tests : Nat) (table : FlowTable) (calls : CallGraph) : TypingContext where
  program := testing tests
  table := table
  calls := calls
  catalog := .empty
  globals := #[]
  protos := #[{}]
  sub := 0

theorem skipsOperand_test {command : Nat} (before : command < tests) :
    Liveness.skipsOperand (testing tests) command = false := by
  have plain : Liveness.followsTopCopy (testing tests) command = false := by
    rw [Liveness.followsTopCopy, Program.previous?]
    split
    · have here : (testing tests).opcode (command - 1) = .jumpZero :=
        congrArg Instruction.opcode (instruction_test (by omega))
      simp [here]
    · rfl
  simp [Liveness.skipsOperand, plain]

section Walks

variable {table : FlowTable} (live : table.AllLive (testing tests)) (calls : CallGraph)

include live

/-- A test is a decision. -/
theorem exists_step_test {command : Nat} (before : command < tests) (trace : TypeTrace) :
    ∃ next, trace.step (testingWalks tests table calls) true command = .ok (.branch command, next) := by
  have here : (testingWalks tests table calls).program.instruction command = .jump .jumpZero 6 :=
    instruction_test before
  have normal : (testingWalks tests table calls).table.state command = .ok .normal := by
    have known := live.state command (by
      rw [isAlone_testing.commandCount, length_testingCode]
      omega)
    rwa [skipsOperand_test before] at known
  rw [TypeTrace.step, TypeTrace.execute, here]
  dsimp only [Instruction.jump]
  rw [normal]
  exact ⟨_, rfl⟩

omit live in
/-- The action is unknown. -/
theorem exists_step_action (trace : TypeTrace) :
    ∃ next, trace.step (testingWalks tests table calls) true tests = .ok (.stuck, next) := by
  have here : (testingWalks tests table calls).program.instruction tests =
      ⟨.action, .void, .action 0 0⟩ := instruction_behind 0 rfl
  rw [TypeTrace.step, TypeTrace.execute, here]
  exact ⟨_, rfl⟩

/-- Behind a test both ways go on alike, and all walks fail after as many decisions as tests are left. -/
theorem walksFrom_testing {left command steps : Nat} (behind : command + left = tests)
    (enough : left < steps) (trace : TypeTrace) :
    let paths := ((testingWalks tests table calls).walksFrom true steps (some command) trace).paths
    paths.length = 2 ^ left ∧ ∀ path ∈ paths, path.1.length = left ∧ path.2 = .ok .failed := by
  obtain ⟨steps, rfl⟩ := Nat.exists_eq_succ_of_ne_zero (Nat.ne_of_gt (Nat.zero_lt_of_lt enough))
  induction left generalizing command steps trace with
  | zero =>
      obtain ⟨next, stepped⟩ := @exists_step_action tests table calls trace
      obtain rfl : command = tests := behind
      dsimp only
      rw [TypingContext.walksFrom, stepped]
      refine ⟨rfl, fun path listed => ?_⟩
      rw [List.mem_singleton.mp listed]
      exact ⟨rfl, rfl⟩
  | succ left induction =>
      have before : command < tests := by omega
      obtain ⟨next, stepped⟩ := exists_step_test live calls before trace
      obtain ⟨steps, rfl⟩ := Nat.exists_eq_succ_of_ne_zero (show steps ≠ 0 by omega)
      obtain ⟨count, alike⟩ := induction (show command + 1 + left = tests by omega) next steps (by omega)
      have on : (testingWalks tests table calls).onward
          (fun target => (testingWalks tests table calls).walksFrom true (steps + 1) (some target) next)
          (.ok (some (command + 1))) =
            (testingWalks tests table calls).walksFrom true (steps + 1) (some (command + 1)) next :=
        if_pos (isAlone_testing.owner (by
          rw [length_testingCode]
          omega))
      have falls : (testingWalks tests table calls).program.next? command = some (command + 1) :=
        isAlone_testing.next? (by
          rw [length_testingCode]
          omega)
      have takes : (testingWalks tests table calls).table.destination command =
          .ok (some (command + 1)) := by
        rw [← destination_test before]
        exact live.destination command (by
          rw [isAlone_testing.commandCount, length_testingCode]
          omega)
      dsimp only at count alike ⊢
      rw [TypingContext.walksFrom, stepped]
      dsimp only
      rw [falls, takes, on, DecisionTree.paths]
      refine ⟨?_, fun path listed => ?_⟩
      · rw [List.length_append, List.length_map, List.length_map, count, Nat.two_pow_succ]
      · rcases List.mem_append.mp listed with fallen | taken
        · obtain ⟨rest, inside, rfl⟩ := List.mem_map.mp fallen
          exact ⟨congrArg Nat.succ (alike rest inside).1, (alike rest inside).2⟩
        · obtain ⟨rest, inside, rfl⟩ := List.mem_map.mp taken
          exact ⟨congrArg Nat.succ (alike rest inside).1, (alike rest inside).2⟩

/-- With as many tests as the cap admits decisions, the search goes along every path. -/
theorem length_tried_testing :
    (TypingContext.tried tests (testingWalks tests table calls).globalPaths).length = 2 ^ tests := by
  have body : (testingWalks tests table calls).program.body (testingWalks tests table calls).sub =
      List.range (tests + 3) := by
    rw [← length_testingCode]
    exact isAlone_testing.body
  have limit : tests < (testingWalks tests table calls).stepLimit := by
    rw [TypingContext.stepLimit, body, List.length_range]
    omega
  obtain ⟨count, alike⟩ := walksFrom_testing live calls (Nat.zero_add tests) limit {}
  have paths : (testingWalks tests table calls).globalPaths =
      ((testingWalks tests table calls).walksFrom true (testingWalks tests table calls).stepLimit
        (some 0) {}).paths := by
    rw [TypingContext.globalPaths, TypingContext.walks, body, List.range_succ_eq_map]
    rfl
  have unsettled : ∀ path ∈ (testingWalks tests table calls).globalPaths,
      ¬TypingContext.settles tests path = true := by
    rw [paths]
    rintro ⟨path, result⟩ listed settled
    obtain ⟨long, rfl⟩ := alike _ listed
    have longer : tests < path.length := of_decide_eq_true settled
    exact Nat.ne_of_gt longer long
  rw [TypingContext.tried, List.findIdx_eq_length.mpr fun path listed => by
    simpa using unsettled path listed, List.take_of_length_le (Nat.le_succ _), paths, count]

end Walks

end Testing

/-! ## The number of walks -/

namespace TypingContext

/-- The search for the globals ends, and goes along the paths up to the first one that settles them; their
number is at most two to the power of the cap.  It is within the bound that holds for other subroutines
exactly if so few paths exist or one of the first of them settles the globals.  In general it is not: for
every cap some initializer takes all of these walks. -/
theorem globalTypes_within_pow (context : TypingContext) (cap : Nat) :
    (∃ walks : List (List Nat),
      (∀ extra, context.surveyed cap (2 ^ cap + extra) .empty =
        (walks, some (context.globalTypes cap))) ∧
      walks.length = (tried cap context.globalPaths).length ∧
      walks.length ≤ 2 ^ min cap context.stepLimit ∧
      (walks.length ≤ cap + 1 ↔ context.globalPaths.length ≤ cap + 1 ∨
        ∃ path ∈ context.globalPaths.take (cap + 1), settles cap path)) ∧
    ∃ (program : Program) (table : FlowTable) (calls : CallGraph) (layout : Layout),
      Analysis.flowTable program = .ok table ∧ CallGraph.build program table = .ok calls ∧
      Layout.detect program table calls = .ok layout ∧
      ∃ sub, layout.globals = some sub ∧
        (surveyed ⟨program, table, calls, .empty, #[], #[{}], sub⟩ cap (2 ^ cap) .empty).1.length =
          2 ^ cap := by
  constructor
  · have few := length_tried_le context cap
    have wide : 2 ^ min cap context.stepLimit ≤ 2 ^ cap :=
      Nat.pow_le_pow_right Nat.two_pos (Nat.min_le_left _ _)
    obtain ⟨ended, counted⟩ := context.surveyed_tried cap (few.trans wide)
    refine ⟨(context.surveyed cap (2 ^ cap) .empty).1, fun extra => ?_, counted, counted ▸ few, ?_⟩
    · rw [surveyed_add (by rw [ended]; exact Option.some_ne_none _)]
      exact Prod.ext rfl ended
    · rw [counted, length_tried_le_iff]
  · obtain ⟨table, calls, layout, flow, built, detected, globals, live⟩ := exists_layout_testing cap
    refine ⟨testing cap, table, calls, layout, flow, built, detected, 0, globals, ?_⟩
    have all := length_tried_testing live calls
    exact ((testingWalks cap table calls).surveyed_tried cap all.le).2.trans all

/-- An initializer of one global whose last path of four sets it up. -/
def choosing : Program :=
  .ofNonempty
    [[⟨13, .simple .reserve .int⟩, ⟨15, .constant (.int 1)⟩, ⟨21, .jump .jumpNonzero 20⟩,
      ⟨27, .constant (.int 1)⟩, ⟨33, .jump .jumpZero 6⟩, ⟨39, .simple .ret .void⟩,
      ⟨41, .constant (.int 1)⟩, ⟨47, .jump .jumpNonzero 8⟩, ⟨53, .simple .ret .void⟩,
      ⟨55, .simple .saveBase .void⟩, ⟨57, .jump .call 16⟩, ⟨63, .simple .restoreBase .void⟩,
      ⟨65, ⟨.moveStack, .void, .offset (-4)⟩⟩, ⟨71, .simple .ret .void⟩],
    [⟨73, .simple .ret .void⟩]] (by simp)

/-- Walks through it before anything is known about prototypes. -/
def choosingWalks : TypingContext where
  program := choosing
  table := Liveness.markedTable choosing (Array.replicate 15 true)
  calls :=
    { graph := ⟨#[[(1, 10)], []], #[[], [(0, 10)]], 1⟩
      targets := (Array.replicate 15 none).set 10 (some 1)
      components := [[1], [0]] }
  catalog := .empty
  globals := #[]
  protos := #[{}, {}]
  sub := 0

/-- A cap of two decisions admits a fourth walk, which finds the global. -/
theorem surveyed_exceeds_cap :
    Analysis.flowTable choosing = .ok choosingWalks.table ∧
      CallGraph.build choosing choosingWalks.table = .ok choosingWalks.calls ∧
      Layout.detect choosing choosingWalks.table choosingWalks.calls = .ok ⟨0, none, some 0, some 9, 1⟩ ∧
      (choosingWalks.surveyed 2 3 .empty).2 = none ∧
      choosingWalks.surveyed 2 4 .empty =
        ([[0, 1, 2, 3, 4, 5], [0, 1, 2, 3, 4, 5], [0, 1, 2, 6, 7, 8], [0, 1, 2, 6, 7, 9]],
          some (.ok (.known [.int]))) := by
  refine ⟨by cbv, by cbv, by cbv, by cbv, by cbv⟩

end TypingContext
end NwScript
