import NwScript.Proofs.StatementGains

/-!
# Steps on scopes

A guarded body, an else branch and a loop with a condition end without a trace, the end of a guarded body
with a jump over its else branch opens the else branch, and a loop opens where its only backward jump
leads.
-/

namespace NwScript

/-- A node is a scope that ends by a position without a trace. -/
def Node.EndsBy (position : Nat) : Node → Prop
  | .branch _ body none | .otherwise body | .whileLoop (some _) body => body.limit ≤ position
  | _ => False

/-- A node is a scope around code that ends at a position; the code of a loop does not end with it. -/
def Node.Encloses (last : Nat) : Node → Prop
  | .branch _ body none | .otherwise body => last ≤ body.limit
  | .whileLoop (some _) body => last < body.limit
  | _ => False

/-- A loop with a condition. -/
def Node.testing (condition : NodeId) : Node → Node
  | .whileLoop _ body => .whileLoop (some condition) body
  | .doLoop _ body => .doLoop (some condition) body
  | node => node

namespace Recovery

/-- The innermost of some scopes, or the body of the subroutine. -/
def innermost : List Scope → NodeId
  | scope :: _ => scope.node
  | [] => ScriptTree.root

theorem current_eq (recovery : Recovery) : recovery.current = innermost recovery.scopes := by
  rw [current]
  cases recovery.scopes <;> rfl

theorem limit_eq {recovery : Recovery} {id : NodeId} {body : Body}
    (owns : (recovery.tree.node id).body? = some body) : recovery.limit id = body.limit := by
  rw [limit, range, owns]

theorem range_eq {recovery : Recovery} {id : NodeId} {body : Body}
    (owns : (recovery.tree.node id).body? = some body) :
    recovery.range id = (body.start, body.limit) := by
  rw [range, owns]

/-- A position behind the innermost of some scopes lies behind its limit. -/
def IsBefore (recovery : Recovery) (position : Nat) (scopes : List Scope) : Prop :=
  ∀ scope ∈ scopes.head?, position < recovery.limit scope.node

end Recovery

namespace Recover

variable {input : RecoveryInput} {before : Recovery} {position : Nat}

theorem openNode_runs (node : Node) (recovery : Recovery) :
    Runs (openNode node) recovery recovery.tree.size
      { recovery with
        tree := (recovery.tree.add node).1.append recovery.current recovery.tree.size
        scopes := ⟨recovery.tree.size, recovery.stack.height⟩ :: recovery.scopes } := by
  cases recovery
  rfl

/-- A scope ends without a trace. -/
theorem closeScope_runs {scope : Scope} {outer : List Scope} {limit : Nat}
    (ends : (before.tree.node scope.node).EndsBy position) :
    Runs (closeScope scope outer limit) before () { before with scopes := outer } := by
  unfold closeScope
  refine (Runs.changes _ _).bind ((Runs.reads _).bind ?_)
  revert ends
  dsimp only
  cases before.tree.node scope.node with
  | branch condition body skip =>
      cases skip with
      | none => exact fun _ => .done _ _
      | some target => exact fun ends => ends.elim
  | otherwise body => exact fun _ => .done _ _
  | whileLoop condition body =>
      cases condition with
      | none => exact fun ends => ends.elim
      | some condition => exact fun _ => .done _ _
  | _ => exact fun ends => ends.elim

theorem limit_of_endsBy {id : NodeId} (ends : (before.tree.node id).EndsBy position) :
    before.limit id ≤ position := by
  rw [Recovery.limit, Recovery.range]
  revert ends
  cases before.tree.node id with
  | branch condition body skip => cases skip <;> simp [Node.EndsBy, Node.body?]
  | whileLoop condition body => cases condition <;> simp [Node.EndsBy, Node.body?]
  | _ => simp [Node.EndsBy, Node.body?]

/-- Nothing more closes in front of the end of the innermost scope. -/
theorem closeScopesFrom_none (open_ended : before.IsBefore position before.scopes) (count : Nat) :
    Runs (closeScopesFrom position count) before () before := by
  cases count with
  | zero => exact .done _ _
  | succ count =>
      unfold closeScopesFrom
      refine (Runs.reads _).bind ?_
      cases scopes : before.scopes with
      | nil => exact .done _ _
      | cons scope outer =>
          have beyond := open_ended scope (by rw [scopes]; rfl)
          exact Runs.ite_neg (Nat.not_le.mpr beyond) (.done _ _)

/-- The scopes that end by a position close one after another. -/
theorem closeScopesFrom_runs {pending outer : List Scope} (scopes : before.scopes = pending ++ outer)
    (ends : ∀ scope ∈ pending, (before.tree.node scope.node).EndsBy position)
    (beyond : before.IsBefore position outer) {count : Nat} (enough : pending.length ≤ count) :
    Runs (closeScopesFrom position count) before () { before with scopes := outer } := by
  induction pending generalizing before count with
  | nil =>
      have same : { before with scopes := outer } = before := by
        cases before
        simp only at scopes
        rw [scopes]
        rfl
      rw [same]
      exact closeScopesFrom_none (by rw [scopes]; exact beyond) count
  | cons scope pending induction =>
      cases count with
      | zero => exact absurd enough (Nat.not_succ_le_zero _)
      | succ count =>
          have here := ends scope List.mem_cons_self
          unfold closeScopesFrom
          refine (Runs.reads _).bind ?_
          rw [scopes]
          refine Runs.ite_pos (limit_of_endsBy here) ((closeScope_runs here).bind ?_)
          exact @induction { before with scopes := pending ++ outer } rfl
            (fun other listed => ends other (List.mem_cons_of_mem _ listed)) beyond _
            (Nat.le_of_succ_le_succ enough)

/-- Before an instruction the scopes close that end by its position. -/
theorem closeScopes_runs {pending outer : List Scope} (scopes : before.scopes = pending ++ outer)
    (ends : ∀ scope ∈ pending, (before.tree.node scope.node).EndsBy position)
    (beyond : before.IsBefore position outer)
    (plain : (before.tree.node (Recovery.innermost outer)).isSwitch = false) :
    Runs (closeScopes position) before () { before with scopes := outer } := by
  have enough : pending.length ≤ 2 * before.scopes.length := by
    rw [scopes, List.length_append]
    omega
  unfold closeScopes
  refine (Runs.reads _).bind ((closeScopesFrom_runs scopes ends beyond enough).bind ?_)
  refine enterCase_runs position ?_
  rw [Recovery.current_eq]
  exact plain

/-- The end of a guarded body with a jump over its else branch opens the else branch. -/
theorem closeScopes_else {scope : Scope} {outer : List Scope} {condition : Option NodeId}
    {body : Body} {skip : Nat} (scopes : before.scopes = scope :: outer)
    (here : before.tree.node scope.node = .branch condition body (some skip))
    (ended : body.limit = position) (longer : position < skip)
    (inside : Recovery.innermost outer < before.tree.size)
    (fits : Recovery.escapes { before with scopes := outer } skip = false) :
    Runs (closeScopes position) before ()
      { before with
        tree := (before.tree.add (.otherwise { start := position, limit := skip })).1.append
          (Recovery.innermost outer) before.tree.size
        scopes := ⟨before.tree.size, before.stack.height⟩ :: outer } := by
  have owns : (before.tree.node scope.node).body? = some body := by
    rw [here]
    rfl
  have reached : before.limit scope.node ≤ position := by
    rw [Recovery.limit_eq owns, ended]
  have stays : ¬Recovery.escapes { before with scopes := outer } skip = true := by
    rw [fits]
    exact Bool.false_ne_true
  let opened : Recovery := { before with
    tree := (before.tree.add (.otherwise { start := position, limit := skip })).1.append
      (Recovery.innermost outer) before.tree.size
    scopes := ⟨before.tree.size, before.stack.height⟩ :: outer }
  have opens : Runs (closeScope scope outer (before.limit scope.node)) before () opened := by
    unfold closeScope
    refine (Runs.changes _ _).bind ((Runs.reads _).bind ?_)
    dsimp only
    rw [here, Recovery.limit_eq owns, ended]
    show Runs (openElse position skip) _ _ _
    unfold openElse
    refine (Runs.reads _).bind (Runs.ite_neg stays ?_)
    have runs := openNode_runs (.otherwise { start := position, limit := skip })
      { before with scopes := outer }
    rw [Recovery.current_eq] at runs
    exact runs.bind (.done _ _)
  have node : opened.tree.node before.tree.size = .otherwise { start := position, limit := skip } := by
    show ((before.tree.add _).1.append _ _).node _ = _
    rw [ScriptTree.node_append, if_neg (Nat.ne_of_gt inside), ScriptTree.node_add_self]
  have open_ended : opened.IsBefore position opened.scopes := by
    intro found listed
    obtain rfl : _ = found := Option.some.inj listed
    have holds : (opened.tree.node before.tree.size).body? =
        some { start := position, limit := skip } := by
      rw [node]
      rfl
    rw [Recovery.limit_eq holds]
    exact longer
  have count : 2 * before.scopes.length = 2 * outer.length + 1 + 1 := by
    rw [scopes, List.length_cons]
    omega
  have closes : Runs (closeScopesFrom position (2 * before.scopes.length)) before () opened := by
    rw [count]
    unfold closeScopesFrom
    refine (Runs.reads _).bind ?_
    rw [scopes]
    exact Runs.ite_pos reached (opens.bind (closeScopesFrom_none open_ended _))
  have current : opened.current = before.tree.size := rfl
  have plain : (opened.tree.node opened.current).isSwitch = false := by
    rw [current, node]
    rfl
  unfold closeScopes
  exact (Runs.reads _).bind (closes.bind (enterCase_runs position plain))

/-- Where everything is live, the latches of a loop are the plain jumps behind a position. -/
theorem latches_eq (live : input.table.AllLive input.program) {origins : List Nat}
    (inside : ∀ origin ∈ origins, origin < input.program.commandCount) :
    latches input position origins = .ok (origins.filter fun origin =>
      input.program.opcode origin = .jump ∧ position < input.program.position origin) := by
  induction origins with
  | nil => rfl
  | cons origin origins induction =>
      have rest := induction fun other listed => inside other (List.mem_cons_of_mem _ listed)
      have alive := live.alive origin (inside origin List.mem_cons_self)
      rw [latches, rest]
      by_cases latch : input.program.opcode origin = .jump ∧ position < input.program.position origin
      · rw [if_pos latch, alive, List.filter_cons_of_pos (by simpa using latch)]
        rfl
      · rw [if_neg latch, List.filter_cons_of_neg (by simpa using latch)]
        rfl

/-- A list without repetitions whose only member is known. -/
theorem eq_singleton_of_nodup {α : Type} {items : List α} {item : α} (nodup : items.Nodup)
    (listed : item ∈ items) (only : ∀ other ∈ items, other = item) : items = [item] := by
  have repeated := List.eq_replicate_of_mem only
  rw [repeated] at nodup
  have short := List.nodup_replicate.mp nodup
  have positive := List.length_pos_of_mem listed
  have length : items.length = 1 := by omega
  rw [repeated, length]
  rfl

/-- A loop opens where its only backward jump leads. -/
theorem openLoops_while (live : input.table.AllLive input.program) {command latch : Nat}
    (inside : command < input.program.commandCount) (latch_inside : latch < input.program.commandCount)
    (jumps : input.program.opcode latch = .jump)
    (leads : Jumps.destination? input.program latch = some command)
    (behind : before.position < input.program.position latch)
    (only : ∀ origin < input.program.commandCount, input.program.opcode origin = .jump →
      Jumps.destination? input.program origin = some command →
        before.position < input.program.position origin → origin = latch)
    (fits : before.escapes (input.program.positionAfter latch) = false)
    (whole : endsDoLoop input latch = .ok false) :
    Runs (openLoops input command) before ()
      { before with
        tree := (before.tree.add (.whileLoop none
          { start := before.position, limit := input.program.positionAfter latch })).1.append
            before.current before.tree.size
        scopes := ⟨before.tree.size, before.stack.height⟩ :: before.scopes
        awaiting := some before.tree.size } := by
  let origins := (List.range input.program.commandCount).filter fun origin =>
    Jumps.destination? input.program origin = some command
  have bounded : ∀ origin ∈ origins, origin < input.program.commandCount := fun origin listed =>
    List.mem_range.mp (List.mem_filter.mp listed).1
  have found : latches input before.position origins = .ok [latch] := by
    rw [latches_eq live bounded]
    refine congrArg Except.ok (eq_singleton_of_nodup ?_ ?_ ?_)
    · exact (List.nodup_range.filter _).filter _
    · simp [origins, latch_inside, leads, jumps, behind]
    · intro origin listed
      have facts := List.mem_filter.mp listed
      have member := List.mem_filter.mp facts.1
      have latches := of_decide_eq_true facts.2
      exact only origin (bounded origin facts.1) latches.1 (of_decide_eq_true member.2) latches.2
  have stays : ¬before.escapes (input.program.positionAfter latch) = true := by
    rw [fits]
    exact Bool.false_ne_true
  have outermost : Runs (openOuterLoop input latch) before ()
      { before with
        tree := (before.tree.add (.whileLoop none
          { start := before.position, limit := input.program.positionAfter latch })).1.append
            before.current before.tree.size
        scopes := ⟨before.tree.size, before.stack.height⟩ :: before.scopes
        awaiting := some before.tree.size } := by
    unfold openOuterLoop
    refine (Runs.reads _).bind (Runs.ite_neg stays ((Runs.lift whole _).bind ?_))
    exact (openNode_runs _ _).bind (Runs.changes _ _)
  unfold openLoops
  refine (Runs.lift (live.origins command inside) _).bind ((Runs.reads _).bind
    ((Runs.lift found _).bind ?_))
  rw [List.mergeSort_singleton]
  exact outermost.bind (.done _ _)

section Jumps

variable {after : Recovery} {command target last : Nat} {track : Option StepTrack}

theorem targetOf_runs (live : input.table.AllLive input.program)
    (inside : command < input.program.commandCount)
    (leads : Jumps.destination? input.program command = some target) (missing : Obstacle) :
    Runs (targetOf input command missing) before target before := by
  have found := live.destination command inside
  rw [leads] at found
  unfold targetOf
  exact (Runs.lift found _).bind (.done _ _)

/-- A conditional jump that skips no operand. -/
theorem execute_jumpZero (live : input.table.AllLive input.program)
    (inside : command < input.program.commandCount) {distance : Int}
    (here : input.program.instruction command = .jump .jumpZero distance)
    (plain : Liveness.skipsOperand input.program command = false)
    (leads : Jumps.destination? input.program command = some target)
    (runs : Runs (jumpZero (input.program.positionAfter command) (input.program.position target))
      before () after) : Runs (execute input command track) before () after := by
  have state : input.table.state command = .ok .normal := by
    rw [live.state command inside, plain]
    rfl
  have opcode : input.program.opcode command ≠ .jumpNonzero := by
    rw [Program.opcode, here]
    exact Opcode.noConfusion
  have tested : Runs (conditional input command) before () after := by
    unfold conditional
    exact (targetOf_runs live inside leads _).bind (Runs.ite_neg opcode runs)
  simp only [execute, here]
  exact (Runs.lift state _).bind (Runs.ite_neg (by decide) tested)

theorem isOpenDo_of_encloses {node : Node} (encloses : node.Encloses last) :
    isOpenDo node = false := by
  revert encloses
  cases node <;> simp [Node.Encloses, isOpenDo]

theorem isSwitch_of_encloses {node : Node} (encloses : node.Encloses last) :
    node.isSwitch = false := by
  revert encloses
  cases node <;> simp [Node.Encloses, Node.isSwitch]

/-- A loop around code ends behind it. -/
theorem lt_limit_of_encloses {id : NodeId} (encloses : (before.tree.node id).Encloses last)
    (loops : (before.tree.node id).isLoop = true) : last < before.limit id := by
  rw [Recovery.limit, Recovery.range]
  revert encloses loops
  cases before.tree.node id with
  | whileLoop condition body =>
      cases condition with
      | none => exact fun encloses => encloses.elim
      | some condition => exact fun long _ => long
  | _ => simp [Node.Encloses, Node.isLoop]

theorem le_limit_of_encloses {id : NodeId} (encloses : (before.tree.node id).Encloses last) :
    last ≤ before.limit id := by
  rw [Recovery.limit, Recovery.range]
  revert encloses
  cases before.tree.node id with
  | branch condition body skip => cases skip <;> simp [Node.Encloses, Node.body?]
  | whileLoop condition body =>
      cases condition <;> simp [Node.Encloses, Node.body?]
      exact Nat.le_of_lt
  | _ => simp [Node.Encloses, Node.body?]

theorem escapes_eq_false
    (encloses : ∀ scope ∈ before.scopes, (before.tree.node scope.node).Encloses last)
    (fits : target ≤ last) : before.escapes target = false := by
  rw [Recovery.escapes, Recovery.current_eq]
  cases scopes : before.scopes with
  | nil => rfl
  | cons scope outer =>
      have long := le_limit_of_encloses (encloses scope (by rw [scopes]; exact List.mem_cons_self))
      have bound : ¬before.limit scope.node < target := by omega
      simp [Recovery.innermost, bound]

/-- A test in front of code that some scopes enclose opens a branch. -/
theorem jumpZero_branch {start : Nat} {condition : NodeId} {popped : Recovery}
    (encloses : ∀ scope ∈ before.scopes, (before.tree.node scope.node).Encloses last)
    (settled : before.awaiting = none) (forward : start ≤ target) (fits : target ≤ last)
    (takes : Runs takeSlot before condition popped) :
    Runs (jumpZero start target) before ()
      { popped with
        tree := (popped.tree.add (.branch (some condition) { start, limit := target } none)).1.append
          popped.current popped.tree.size
        scopes := ⟨popped.tree.size, popped.stack.height⟩ :: popped.scopes } := by
  have no_while : testedWhile? before target = none := by
    rw [testedWhile?, settled]
    rfl
  have no_do : testedDo? before target = none := by
    rw [testedDo?, Recovery.innermostLoop?]
    cases found : before.scopes.find? before.isLoop with
    | none => rfl
    | some scope =>
        have plain := isOpenDo_of_encloses (encloses scope (List.mem_of_find?_eq_some found))
        simp [Option.filter, plain]
  have backwards : ¬target < start := by omega
  have stays : ¬before.escapes target = true := by
    rw [escapes_eq_false encloses fits]
    exact Bool.false_ne_true
  unfold jumpZero
  refine (Runs.reads _).bind ?_
  rw [no_while]
  dsimp only
  rw [no_do]
  dsimp only
  unfold openBranch
  refine (Runs.reads _).bind (Runs.ite_neg backwards (Runs.ite_neg stays (takes.bind ?_)))
  exact (openNode_runs _ _).bind (.done _ _)

/-- The test of a loop that waits for it gives the loop its condition. -/
theorem jumpZero_while {start : Nat} {loop condition : NodeId} {popped : Recovery}
    (waits : before.awaiting = some loop) (limit : before.limit loop = target)
    (takes : Runs takeSlot before condition popped) :
    Runs (jumpZero start target) before ()
      { popped with
        tree := (popped.tree.modify loop (.testing condition)).setParent condition (some loop)
        awaiting := none } := by
  have tested : testedWhile? before target = some loop := by
    rw [testedWhile?, waits]
    simp [Option.filter, limit]
  unfold jumpZero
  refine (Runs.reads _).bind ?_
  rw [tested]
  exact takes.bind ((onTree_runs _ _).bind (Runs.changes _ _))

/-- A plain jump that is neither taken for a deferred argument nor for a switch. -/
theorem execute_jump (live : input.table.AllLive input.program)
    (inside : command < input.program.commandCount) {distance : Int}
    (here : input.program.instruction command = .jump .jump distance)
    (direct : input.skipsClosure command = false) (settled : before.dispatch = none)
    (leads : Jumps.destination? input.program command = some target)
    (runs : Runs (if input.program.position target < before.position then
        backwardJump (input.program.position target) (input.program.positionAfter command)
      else if input.program.position target ≠ input.program.positionAfter command then
        forwardJump (input.program.position target) (input.program.positionAfter command)
          (input.returnsAt target)
      else pure ()) before () after) : Runs (execute input command track) before () after := by
  have jumped : Runs (jump input command) before () after := by
    unfold jump
    refine (targetOf_runs live inside leads _).bind ((Runs.reads _).bind ?_)
    rw [direct, settled]
    exact runs
  simp only [execute, here]
  exact jumped

/-- The jump at the end of a loop back to its start says nothing. -/
theorem backwardJump_runs {scope : Scope} {outer : List Scope} {condition : Option NodeId}
    {body : Body} (scopes : before.scopes = scope :: outer)
    (loops : before.tree.node scope.node = .whileLoop condition body) :
    Runs (backwardJump body.start body.limit) before () before := by
  have loop : before.isLoop scope = true := by
    rw [Recovery.isLoop, loops]
    rfl
  have innermost : before.innermostLoop? = some scope.node := by
    rw [Recovery.innermostLoop?, scopes, List.find?_cons_of_pos loop]
    rfl
  have owns : (before.tree.node scope.node).body? = some body := by
    rw [loops]
    rfl
  unfold backwardJump
  refine (Runs.reads _).bind ?_
  rw [innermost]
  dsimp only
  rw [Recovery.range_eq owns]
  exact Runs.ite_pos ⟨rfl, rfl⟩ (.done _ _)

theorem leaves_eq_false {test : Node → Bool}
    (stays : ∀ scope ∈ before.scopes, test (before.tree.node scope.node) = true →
      before.limit scope.node ≠ target) : leaves before target test = false := by
  rw [leaves, Recovery.innermostBreakable?]
  cases found : before.scopes.find? fun scope =>
      before.isLoop scope || (before.tree.node scope.node).isSwitch with
  | none => rfl
  | some scope =>
      have listed := List.mem_of_find?_eq_some found
      by_cases tested : test (before.tree.node scope.node) = true
      · simp [stays scope listed tested]
      · simp [tested]

/-- The jump at the end of a guarded body over code that the scopes around it enclose gives the body an
else branch. -/
theorem forwardJump_runs {scope : Scope} {outer : List Scope} {condition : Option NodeId}
    {body : Body} (scopes : before.scopes = scope :: outer)
    (here : before.tree.node scope.node = .branch condition body none)
    (encloses : ∀ scope ∈ outer, (before.tree.node scope.node).Encloses last) (fits : target ≤ last)
    (longer : body.limit < target) :
    Runs (forwardJump target body.limit false) before ()
      { before with
        tree := before.tree.modify scope.node fun _ => .branch condition body (some target) } := by
  have owns : (before.tree.node scope.node).body? = some body := by
    rw [here]
    rfl
  have no_switch : leaves before target Node.isSwitch = false := by
    refine leaves_eq_false fun found listed tested => ?_
    rw [scopes] at listed
    rcases List.mem_cons.mp listed with rfl | around
    · rw [here] at tested
      exact absurd tested Bool.false_ne_true
    · rw [isSwitch_of_encloses (encloses found around)] at tested
      exact absurd tested Bool.false_ne_true
  have no_loop : leaves before target Node.isLoop = false := by
    refine leaves_eq_false fun found listed tested => ?_
    rw [scopes] at listed
    rcases List.mem_cons.mp listed with rfl | around
    · rw [here] at tested
      exact absurd tested Bool.false_ne_true
    · have long := lt_limit_of_encloses (encloses found around) tested
      omega
  have current : before.current = scope.node := by
    rw [Recovery.current, scopes]
  have opens : mayOpenElse before target body.limit false = true := by
    rw [mayOpenElse, current, Recovery.limit_eq owns]
    simp [longer]
  unfold forwardJump
  refine (Runs.reads _).bind ?_
  simp only [no_switch, no_loop, opens, current, here, withSkip?, Bool.false_and, if_true,
    Bool.false_eq_true, if_false]
  exact onTree_runs _ _

end Jumps

end Recover
end NwScript
