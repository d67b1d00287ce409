import NwScript.Proofs.PathSearch

/-!
# The cap ends an exploration

An exploration repeats one attempt: a walk, the accounting of the decisions that it queued, and the way
back to the last decision with an untried alternative.  Its end does not rest on the subroutine, whose
jumps may lead backwards and whose decision tree may be exponentially large.  Every attempt takes one
decision at least from the cap, which bounds the walks, and the step limit bounds each of them.
-/

namespace NwScript

/-- Where an exploration stands before a walk. -/
structure PathSearch where
  /-- Walks made. -/
  attempts : Nat
  /-- Decisions queued so far. -/
  queued : Nat
  /-- The callee that the last blocked walk waited for. -/
  waiting : Option Nat
  /-- The decisions that the walk replays. -/
  queue : DecisionQueue

namespace PathSearch

variable {budget : Option Nat} {cap : Nat} {search next : PathSearch} {result : WalkResult}
  {walked : DecisionQueue}

/-- What follows a walk: the exploration ends, or it goes on from the decision flipped last. -/
def assess (budget : Option Nat) (cap : Nat) (search : PathSearch) (result : WalkResult)
    (walked : DecisionQueue) : Exploration ⊕ PathSearch :=
  let total := search.queued + max 1 (walked.length - search.queue.length)
  if cap < total then .inl ⟨.limitExceeded, walked, total⟩
  else
    match result with
    | .complete outcome => .inl ⟨.found outcome, walked, total⟩
    | result =>
        let waiting := TypingContext.waitingOn search.waiting result
        if budget.any (· ≤ search.attempts + 1) then .inl ⟨.blocked waiting, walked, total⟩
        else
          match walked.backtrack with
          | (true, next) => .inr ⟨search.attempts + 1, total, waiting, next⟩
          | (false, next) => .inl ⟨.blocked waiting, next, total⟩

/-- An exploration that goes on has counted the walk that it made and is still within the cap. -/
theorem queued_of_assess (goes : search.assess budget cap result walked = .inr next) :
    search.queued < next.queued ∧ next.queued ≤ cap := by
  have counted : 1 ≤ max 1 (walked.length - search.queue.length) := Nat.le_max_left 1 _
  unfold assess at goes
  dsimp only at goes
  split at goes
  · cases goes
  · rename_i within
    split at goes
    · cases goes
    · split at goes
      · cases goes
      · split at goes
        · obtain rfl := Sum.inr.inj goes
          exact ⟨by dsimp only; omega, Nat.not_lt.mp within⟩
        · cases goes

end PathSearch

namespace TypingContext

variable {context : TypingContext} {budget : Option Nat} {cap : Nat}

/-! ## The instructions of a walk -/

/-- A walk from an instruction on, with the instructions that it simulates. -/
def simulatedFrom (context : TypingContext) (globalsOnly : Bool) :
    (steps : Nat) → Option Nat → TypeTrace → DecisionQueue →
      List Nat × Except Fault (WalkResult × DecisionQueue)
  | _, none, _, queue => ([], .ok (.failed, queue))
  | 0, some _, _, queue => ([], .ok (.failed, queue))
  | steps + 1, some command, trace, queue =>
      match trace.step context globalsOnly command with
      | .error fault => ([command], .error fault)
      | .ok (flow, trace) =>
          match context.successor command queue flow with
          | .error fault => ([command], .error fault)
          | .ok (none, queue) => ([command], .ok (ending globalsOnly trace flow, queue))
          | .ok (some none, queue) => ([command], .ok (.failed, queue))
          | .ok (some (some next), queue) =>
              if context.program.owner next = context.sub then
                let (later, ended) := simulatedFrom context globalsOnly steps (some next) trace queue
                (command :: later, ended)
              else
                ([command], .ok (.failed, queue))

/-- A walk of an exploration, with the instructions that it simulates. -/
def simulated (context : TypingContext) (queue : DecisionQueue) :
    List Nat × Except Fault (WalkResult × DecisionQueue) :=
  context.simulatedFrom false context.stepLimit (context.program.body context.sub).head? {} queue

/-- Noting the instructions changes nothing of the walk. -/
theorem simulatedFrom_snd {globalsOnly : Bool} (steps : Nat) (command : Option Nat)
    (trace : TypeTrace) (queue : DecisionQueue) :
    (context.simulatedFrom globalsOnly steps command trace queue).2 =
      context.walkFrom globalsOnly steps command trace queue := by
  induction steps generalizing command trace queue with
  | zero => cases command <;> rfl
  | succ steps induction =>
      cases command with
      | none => rfl
      | some command =>
          rw [simulatedFrom, walkFrom]
          cases trace.step context globalsOnly command with
          | error fault => rfl
          | ok stepped =>
              obtain ⟨flow, changed⟩ := stepped
              simp only [bind, Except.bind]
              cases context.successor command queue flow with
              | error fault => rfl
              | ok went =>
                  obtain ⟨_ | _ | next, left⟩ := went
                  · rfl
                  · rfl
                  · dsimp only
                    split
                    · exact induction _ _ _
                    · rfl

/-- A walk simulates no more instructions than it has steps. -/
theorem length_simulatedFrom_le {globalsOnly : Bool} (steps : Nat) (command : Option Nat)
    (trace : TypeTrace) (queue : DecisionQueue) :
    (context.simulatedFrom globalsOnly steps command trace queue).1.length ≤ steps := by
  induction steps generalizing command trace queue with
  | zero => cases command <;> exact Nat.le_refl 0
  | succ steps induction =>
      have single : ∀ command : Nat, [command].length ≤ steps + 1 := fun _ =>
        Nat.succ_le_succ (Nat.zero_le steps)
      cases command with
      | none => exact Nat.zero_le _
      | some command =>
          rw [simulatedFrom]
          split
          · exact single command
          · split
            · exact single command
            · exact single command
            · exact single command
            · split
              · exact Nat.succ_le_succ (induction _ _ _)
              · exact single command

/-! ## The loop of an exploration -/

/-- The loop of an exploration, cut off after some walks: the instructions that each walk simulated, and
what the exploration gave if it has ended by then. -/
def explored (context : TypingContext) (budget : Option Nat) (cap : Nat) :
    (walks : Nat) → PathSearch → List (List Nat) × Option (Except Fault Exploration)
  | 0, _ => ([], none)
  | walks + 1, search =>
      match context.simulated search.queue.rewind with
      | (commands, .error fault) => ([commands], some (.error fault))
      | (commands, .ok (result, walked)) =>
          match search.assess budget cap result walked with
          | .inl exploration => ([commands], some (.ok exploration))
          | .inr next =>
              let (later, ended) := explored context budget cap walks next
              (commands :: later, ended)

/-- The search from where an exploration stands. -/
def exploreOn (context : TypingContext) (budget : Option Nat) (cap : Nat) (search : PathSearch) :
    Except Fault Exploration :=
  context.exploreFrom budget cap search.attempts search.queued search.waiting search.queue

/-- One turn of the search is a walk and its assessment. -/
theorem exploreOn_eq (search : PathSearch) :
    context.exploreOn budget cap search = (do
      let (result, walked) ← (context.simulated search.queue.rewind).2
      match search.assess budget cap result walked with
      | .inl exploration => .ok exploration
      | .inr next => context.exploreOn budget cap next) := by
  have same : (context.simulated search.queue.rewind).2 = context.walk false search.queue.rewind :=
    simulatedFrom_snd _ _ _ _
  rw [exploreOn, exploreFrom, same]
  refine bind_congr fun went => ?_
  obtain ⟨result, walked⟩ := went
  unfold PathSearch.assess
  dsimp only
  split
  · rfl
  · cases result with
    | complete outcome => rfl
    | _ =>
        dsimp only
        split
        · rfl
        · obtain ⟨flipped, next⟩ := walked.backtrack
          cases flipped <;> rfl

/-- From any point on, the loop ends with the result of the search after as many walks as decisions are
left in the cap, and one. -/
theorem explored_ends (walks : Nat) (search : PathSearch) (enough : cap - search.queued < walks) :
    (context.explored budget cap walks search).2 = some (context.exploreOn budget cap search) ∧
      (context.explored budget cap walks search).1.length ≤ cap - search.queued + 1 ∧
      ∀ commands ∈ (context.explored budget cap walks search).1,
        commands.length ≤ context.stepLimit := by
  induction walks generalizing search with
  | zero => exact absurd enough (Nat.not_lt_zero _)
  | succ walks induction =>
      have within : (context.simulated search.queue.rewind).1.length ≤ context.stepLimit :=
        length_simulatedFrom_le _ _ _ _
      have single : ∀ commands ∈ [(context.simulated search.queue.rewind).1],
          commands.length ≤ context.stepLimit := by
        rintro _ (_ | ⟨_, ⟨⟩⟩)
        exact within
      rw [explored, exploreOn_eq]
      generalize context.simulated search.queue.rewind = walk at within single ⊢
      obtain ⟨commands, fault | ⟨result, walked⟩⟩ := walk
      · exact ⟨rfl, Nat.le_add_left 1 _, single⟩
      · simp only [bind, Except.bind]
        cases assessed : search.assess budget cap result walked with
        | inl exploration => exact ⟨rfl, Nat.le_add_left 1 _, single⟩
        | inr next =>
            obtain ⟨counted, capped⟩ := PathSearch.queued_of_assess assessed
            obtain ⟨ended, fewer, short⟩ := induction next (by omega)
            refine ⟨ended, ?_, ?_⟩
            · simp only [List.length_cons]
              omega
            · rintro _ (_ | ⟨_, later⟩)
              · exact within
              · exact short _ later

/-- Once the loop has ended, more walks make no difference. -/
theorem explored_add {walks : Nat} {search : PathSearch}
    (ended : (context.explored budget cap walks search).2 ≠ none) (extra : Nat) :
    context.explored budget cap (walks + extra) search = context.explored budget cap walks search := by
  induction walks generalizing search with
  | zero => exact absurd rfl ended
  | succ walks induction =>
      rw [Nat.add_right_comm]
      rw [explored] at ended ⊢
      rw [explored]
      generalize context.simulated search.queue.rewind = walk at ended ⊢
      obtain ⟨commands, fault | ⟨result, walked⟩⟩ := walk
      · rfl
      · cases assessed : search.assess budget cap result walked with
        | inl exploration => simp only [assessed]
        | inr next =>
            simp only [assessed] at ended ⊢
            rw [induction ended]

/-- An exploration ends within the cap: its loop returns after at most one walk more than decisions were
left, whatever the budget and wherever the jumps lead, and each walk simulates at most four times as
many instructions as the subroutine has, or sixteen. -/
theorem explore_within_cap (context : TypingContext) (budget : Option Nat) (cap queued : Nat)
    (queue : DecisionQueue) :
    ∃ walks : List (List Nat),
      (∀ extra, context.explored budget cap (cap - queued + 1 + extra) ⟨0, queued, none, queue⟩ =
        (walks, some (context.explore budget cap queued queue))) ∧
      walks.length ≤ cap - queued + 1 ∧
      ∀ commands ∈ walks,
        commands.length ≤ max 16 (4 * (context.program.body context.sub).length) := by
  obtain ⟨ended, fewer, short⟩ := @explored_ends context budget cap (cap - queued + 1)
    ⟨0, queued, none, queue⟩ (Nat.lt_succ_self _)
  refine ⟨(context.explored budget cap (cap - queued + 1) ⟨0, queued, none, queue⟩).1,
    fun extra => ?_, fewer, fun commands listed => ?_⟩
  · rw [explored_add (by rw [ended]; exact Option.some_ne_none _)]
    exact Prod.ext rfl ended
  · rw [Nat.mul_comm]
    exact short commands listed

end TypingContext
end NwScript
