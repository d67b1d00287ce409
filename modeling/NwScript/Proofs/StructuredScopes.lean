import NwScript.Proofs.StructuredSteps

/-!
# Recovery of structured code

The code of statements is replayed inside of the scopes around it, which all end behind it or with it.
Scopes that end with it may be left open; they close before the next instruction, however many of them
end there.  What the code adds to the innermost scope around it reads as the statements.
-/

namespace NwScript

namespace Node

variable {node : Node} {last : Nat} {children : List NodeId}

theorem Encloses.addingAll (encloses : node.Encloses last) :
    (node.mapBody (Body.addingAll children)).Encloses last := by
  revert encloses
  cases node with
  | branch condition body skip => cases skip <;> exact id
  | whileLoop condition body => cases condition <;> exact id
  | _ => exact id

theorem EndsBy.addingAll (ends : node.EndsBy last) :
    (node.mapBody (Body.addingAll children)).EndsBy last := by
  revert ends
  cases node with
  | branch condition body skip => cases skip <;> exact id
  | whileLoop condition body => cases condition <;> exact id
  | _ => exact id

theorem Encloses.mono (encloses : node.Encloses last) {earlier : Nat} (order : earlier ≤ last) :
    node.Encloses earlier := by
  revert encloses
  cases node with
  | branch condition body skip =>
      cases skip with
      | none => exact Nat.le_trans order
      | some skip => exact id
  | otherwise body => exact Nat.le_trans order
  | whileLoop condition body =>
      cases condition with
      | none => exact id
      | some condition => exact Nat.lt_of_le_of_lt order
  | _ => exact id

theorem Encloses.exists_body (encloses : node.Encloses last) :
    ∃ body, node.body? = some body ∧ last ≤ body.limit := by
  revert encloses
  cases node with
  | branch condition body skip =>
      cases skip with
      | none => exact fun long => ⟨body, rfl, long⟩
      | some skip => exact False.elim
  | otherwise body => exact fun long => ⟨body, rfl, long⟩
  | whileLoop condition body =>
      cases condition with
      | none => exact False.elim
      | some condition => exact fun long => ⟨body, rfl, Nat.le_of_lt long⟩
  | _ => exact False.elim

theorem hasNoDefaults_testing {catalog : ActionCatalog} (plain : node.HasNoDefaults catalog)
    (condition : NodeId) : (node.testing condition).HasNoDefaults catalog := by
  revert plain
  cases node <;> exact id

end Node

namespace Structured

open Recover

/-- Scopes around code that ends at a position. -/
structure Enclosed (tree : ScriptTree) (outer : List Scope) (last : Nat) : Prop where
  /-- The outermost body. -/
  root : ∃ body, tree.node ScriptTree.root = .block body
  /-- The scopes exist. -/
  inside : ∀ scope ∈ outer, scope.node < tree.size
  /-- No scope ends inside of the code. -/
  encloses : ∀ scope ∈ outer, (tree.node scope.node).Encloses last

section Enclosed

variable {tree after : ScriptTree} {outer : List Scope} {last : Nat}

theorem Enclosed.innermost_inside (enclosed : Enclosed tree outer last) :
    Recovery.innermost outer < tree.size := by
  cases outer with
  | nil =>
      obtain ⟨body, block⟩ := enclosed.root
      exact ScriptTree.lt_of_body? (by rw [Recovery.innermost, block]; rfl)
  | cons scope outer => exact enclosed.inside scope List.mem_cons_self

theorem Enclosed.stays (enclosed : Enclosed tree outer last) {position : Nat}
    (before : position < last) : Stays tree outer position where
  inside := enclosed.innermost_inside
  plain := by
    cases outer with
    | nil =>
        obtain ⟨body, block⟩ := enclosed.root
        rw [Recovery.innermost, block]
        rfl
    | cons scope outer => exact isSwitch_of_encloses (enclosed.encloses scope List.mem_cons_self)
  beyond := by
    intro scope listed
    obtain ⟨body, owns, long⟩ :=
      (enclosed.encloses scope (List.mem_of_mem_head? listed)).exists_body
    exact ⟨body, owns, Nat.lt_of_lt_of_le before long⟩

theorem Enclosed.gains (enclosed : Enclosed tree outer last) {parent : NodeId}
    {children : List NodeId} (gains : tree.Gains after parent children) :
    Enclosed after outer last where
  root := by
    obtain ⟨body, block⟩ := enclosed.root
    rw [gains.node (ScriptTree.lt_of_body? (by rw [block]; rfl)), block]
    split
    · exact ⟨_, rfl⟩
    · exact ⟨_, rfl⟩
  inside := fun scope listed => Nat.lt_of_lt_of_le (enclosed.inside scope listed) gains.size
  encloses := by
    intro scope listed
    rw [gains.node (enclosed.inside scope listed)]
    split
    · exact (enclosed.encloses scope listed).addingAll
    · exact enclosed.encloses scope listed

theorem Enclosed.mono (enclosed : Enclosed tree outer last) {earlier : Nat} (order : earlier ≤ last) :
    Enclosed tree outer earlier :=
  ⟨enclosed.root, enclosed.inside, fun scope listed => (enclosed.encloses scope listed).mono order⟩

/-- One more scope around the code. -/
theorem Enclosed.cons (enclosed : Enclosed tree outer last) {scope : Scope}
    (inside : scope.node < tree.size) (encloses : (tree.node scope.node).Encloses last) :
    Enclosed tree (scope :: outer) last where
  root := enclosed.root
  inside := List.forall_mem_cons.mpr ⟨inside, enclosed.inside⟩
  encloses := List.forall_mem_cons.mpr ⟨encloses, enclosed.encloses⟩

end Enclosed

/-- Between two statements nothing waits, and only scopes that are over are open inside of some
others. -/
structure Between (input : RecoveryInput) (base : SlotStack StackEntry) (outer : List Scope)
    (position : Nat) (recovery : Recovery) : Prop where
  /-- The subroutine has not been left. -/
  going : recovery.finished = false
  /-- No loop waits for its condition. -/
  settled : recovery.awaiting = none
  /-- No switch is about to begin. -/
  direct : recovery.dispatch = none
  /-- Nothing waits to be returned. -/
  owed : recovery.pendingReturn = none
  /-- Only the frame is on the stack. -/
  stack : recovery.stack = base
  /-- The frame consists of variables. -/
  framed : IsFramed base recovery.tree
  /-- No call has default arguments. -/
  uncut : recovery.tree.Uncut input.catalog
  /-- The inner scopes are over. -/
  scopes : ∃ pending, recovery.scopes = pending ++ outer ∧
    ∀ scope ∈ pending, (recovery.tree.node scope.node).EndsBy position

section Between

variable {input : RecoveryInput} {base : SlotStack StackEntry} {outer : List Scope}
  {position last : Nat} {recovery : Recovery}

/-- Before the next statement the scopes that are over close. -/
theorem Between.closes (between : Between input base outer position recovery)
    (stays : Stays recovery.tree outer position) :
    Runs (closeScopes position) { recovery with position } ()
      { recovery with position, scopes := outer } := by
  obtain ⟨pending, scopes, ends⟩ := between.scopes
  exact @closeScopes_runs { recovery with position } position pending outer scopes ends
    stays.isBefore stays.plain

/-- Nothing is over where all inner scopes have been closed. -/
theorem Between.closed (between : Between input base outer position recovery)
    (next place : Nat) :
    Between input base outer next
      { recovery with scopes := outer, position := place, track := none } :=
  { between with scopes := ⟨[], rfl, fun _ listed => absurd listed List.not_mem_nil⟩ }

/-- A scope is over where its limit is reached. -/
theorem Between.leave {scope : Scope} (between : Between input base (scope :: outer) position recovery)
    (ends : (recovery.tree.node scope.node).EndsBy position) :
    Between input base outer position recovery := by
  obtain ⟨pending, scopes, pending_ends⟩ := between.scopes
  refine { between with scopes := ⟨pending ++ [scope], ?_, ?_⟩ }
  · rw [scopes, List.append_assoc]
    rfl
  · intro other listed
    rcases List.mem_append.mp listed with inner | own
    · exact pending_ends other inner
    · rw [List.mem_singleton.mp own]
      exact ends

end Between

section Trees

variable (tree : ScriptTree) (parent : NodeId) (start limit : Nat)

theorem AgreeFrom.gains {before after : ScriptTree} {parent low : NodeId} {children : List NodeId}
    (gains : before.Gains after parent children) (aside : parent < low ∨ before.size ≤ parent) :
    AgreeFrom before after low := by
  refine ⟨gains.size, fun id above old => gains.node_of_ne old ?_⟩
  rcases aside with below | new
  · exact Nat.ne_of_gt (Nat.lt_of_lt_of_le below above)
  · exact Nat.ne_of_lt (Nat.lt_of_lt_of_le old new)

theorem AgreeFrom.trans {before middle after : ScriptTree} {low : NodeId}
    (first : AgreeFrom before middle low) (second : AgreeFrom middle after low) :
    AgreeFrom before after low := by
  refine ⟨Nat.le_trans first.1 second.1, fun id above old => ?_⟩
  rw [second.2 id above (Nat.lt_of_lt_of_le old first.1), first.2 id above old]

/-- A tree with one more branch, whose condition comes before it. -/
def branched : ScriptTree :=
  (conditioned tree).stating parent (.branch (some (tree.size + 1)) { start, limit } none)

@[simp]
theorem size_branched : (branched tree parent start limit).size = tree.size + 3 := by
  simp [branched]

theorem gains_branched :
    tree.Gains (branched tree parent start limit) parent [tree.size + 2] := by
  have gains := (gains_conditioned tree parent).trans (ScriptTree.gains_stating (conditioned tree)
    parent (.branch (some (tree.size + 1)) { start, limit } none))
  rwa [size_conditioned] at gains

variable {tree parent} in
theorem node_branched (inside : parent < tree.size) :
    (branched tree parent start limit).node (tree.size + 2) =
      .branch (some (tree.size + 1)) { start, limit } none := by
  have here := ScriptTree.node_stating_self
    (.branch (some (tree.size + 1)) { start, limit } none)
    (Nat.lt_of_lt_of_le inside (gains_conditioned tree parent).size)
  rwa [size_conditioned] at here

variable {tree parent} in
theorem calls_branched (inside : parent < tree.size) :
    Calls (branched tree parent start limit) tree.size 0 "Random" (.int 2) (tree.size + 1)
      tree.size :=
  (calls_conditioned tree).transfer (.gains (ScriptTree.gains_stating _ _ _) (.inl inside))

/-- A tree with one more loop, whose condition comes behind it. -/
def looped : ScriptTree :=
  ((conditioned (tree.stating parent (.whileLoop none { start, limit }))).modify tree.size
    (.testing (tree.size + 2))).setParent (tree.size + 2) (some tree.size)

@[simp]
theorem size_looped : (looped tree parent start limit).size = tree.size + 3 := by
  simp [looped]

theorem gains_looped : tree.Gains (looped tree parent start limit) parent [tree.size] := by
  have stated := ScriptTree.gains_stating tree parent (.whileLoop none { start, limit })
  have tested := stated.trans (gains_conditioned _ parent)
  exact (tested.modify (Nat.le_refl tree.size) _).setParent _ _

variable {tree parent} in
theorem node_looped (inside : parent < tree.size) :
    (looped tree parent start limit).node tree.size =
      .whileLoop (some (tree.size + 2)) { start, limit } := by
  have old : tree.size < (tree.stating parent (.whileLoop none { start, limit })).size := by simp
  have gains := gains_conditioned (tree.stating parent (.whileLoop none { start, limit })) parent
  have tested := gains.node_of_ne old (Nat.ne_of_gt inside)
  rw [ScriptTree.node_stating_self _ inside] at tested
  rw [looped, ScriptTree.node_setParent, ScriptTree.node_modify_self
    (Nat.lt_of_lt_of_le old gains.size), tested]
  rfl

theorem calls_looped : Calls (looped tree parent start limit) (tree.size + 1) 0 "Random" (.int 2)
    (tree.size + 2) (tree.size + 1) := by
  have calls := calls_conditioned (tree.stating parent (.whileLoop none { start, limit }))
  rw [ScriptTree.size_stating] at calls
  have other : ∀ {id : NodeId}, tree.size + 1 ≤ id →
      (looped tree parent start limit).node id =
        (conditioned (tree.stating parent (.whileLoop none { start, limit }))).node id := by
    intro id behind
    rw [looped, ScriptTree.node_setParent, ScriptTree.node_modify_of_ne (Nat.ne_of_lt behind)]
  refine ⟨(other (Nat.le_succ _)).trans calls.calls, (other (Nat.le_refl _)).trans calls.passes,
    ?_, ?_⟩
  · rw [size_looped]
    exact ⟨Nat.le_succ _, Nat.lt_succ_self _⟩
  · rw [size_looped]
    exact ⟨Nat.le_refl _, Nat.lt_succ_of_lt (Nat.lt_succ_self _)⟩

/-- A tree with an else branch of a branch that is marked to have one. -/
def forked (branch : NodeId) (node : Node) : ScriptTree :=
  (tree.modify branch fun _ => node).stating parent (.otherwise { start, limit })

section Forked

variable {tree parent} {branch : NodeId} (node : Node)

@[simp]
theorem size_forked : (forked tree parent start limit branch node).size = tree.size + 1 := by
  simp [forked]

theorem gains_forked {before : ScriptTree} {children : List NodeId}
    (gains : before.Gains tree parent children) (new : before.size ≤ branch) :
    before.Gains (forked tree parent start limit branch node) parent (children ++ [tree.size]) := by
  have stated := ScriptTree.gains_stating (tree.modify branch fun _ => node) parent
    (.otherwise { start, limit })
  rw [ScriptTree.size_modify] at stated
  exact (gains.modify new _).trans stated

theorem node_forked_branch (inside : branch < tree.size) (aside : branch ≠ parent) :
    (forked tree parent start limit branch node).node branch = node := by
  rw [forked, ScriptTree.node_stating_of_ne _ (by rwa [ScriptTree.size_modify]) aside,
    ScriptTree.node_modify_self inside]

theorem node_forked_other (inside : parent < tree.size) :
    (forked tree parent start limit branch node).node tree.size = .otherwise { start, limit } := by
  have marked : parent < (tree.modify branch fun _ => node).size := by
    rwa [ScriptTree.size_modify]
  have here := ScriptTree.node_stating_self (.otherwise { start, limit }) marked
  rwa [ScriptTree.size_modify] at here

theorem node_forked_of_ne {id : NodeId} (inside : id < tree.size) (other : id ≠ branch)
    (aside : id ≠ parent) : (forked tree parent start limit branch node).node id = tree.node id := by
  rw [forked, ScriptTree.node_stating_of_ne _ (by rwa [ScriptTree.size_modify]) aside,
    ScriptTree.node_modify_of_ne (Ne.symm other)]

end Forked

variable {catalog : ActionCatalog} {tree}

theorem uncut_branched (knows : Knows catalog) (uncut : tree.Uncut catalog) :
    (branched tree parent start limit).Uncut catalog :=
  (uncut_conditioned knows uncut).stating parent trivial

theorem uncut_looped (knows : Knows catalog) (uncut : tree.Uncut catalog) :
    (looped tree parent start limit).Uncut catalog := by
  have loop : (Node.whileLoop none { start, limit }).HasNoDefaults catalog := trivial
  have tested := uncut_conditioned knows (uncut.stating parent loop)
  have plain := Node.hasNoDefaults_testing (tested tree.size) (tree.size + 2)
  have changed := tested.modify plain
  intro id
  rw [looped, ScriptTree.node_setParent]
  exact changed id

end Trees

section Visits

variable {input : RecoveryInput} {main : List Structured} {closing : String} {first position last : Nat}
  {base : SlotStack StackEntry} {outer : List Scope} {before after other : Recovery}

/-- A condition opens a branch over code that the scopes around it enclose. -/
theorem IsSetting.visits_branch (setting : IsSetting input main closing) {distance : Int}
    {target limit : Nat} (spans : input.program.Spans first position (test distance))
    (leads : Jumps.destination? input.program (first + 2) = some target)
    (lands : input.program.position target = limit) (forward : position + 17 ≤ limit)
    (fits : limit ≤ last) (closed : IsSealed input.program first (first + 1))
    (between : Between input base outer position before)
    (enclosed : Enclosed before.tree outer last) :
    ∃ opened, Visits input first 3 before opened ∧
      opened.tree = branched before.tree (Recovery.innermost outer) (position + 17) limit ∧
        Between input base (⟨before.tree.size + 2, base.height⟩ :: outer) (position + 17) opened := by
  subst lands
  let entered : Recovery := { before with position, scopes := outer }
  have inside : first < input.program.commandCount := by
    have bound := spans.inside
    omega
  have framed : IsFramed before.stack before.tree := by
    rw [between.stack]
    exact between.framed
  have opens : Runs (openLoops input first) entered () entered :=
    setting.openLoops_runs inside closed spans.head_position.symm
  let waiting : Recovery :=
    { holding entered (position + 6) with position := position + 11, track := none }
  have takes := takeSlot_holding entered framed (position + 6) (position + 11)
  have encloses : ∀ scope ∈ waiting.scopes, (waiting.tree.node scope.node).Encloses last :=
    (enclosed.gains (gains_valued before.tree (Recovery.innermost outer))).encloses
  have tested := jumpZero_branch encloses between.settled forward fits takes
  have current : (behindTest entered (position + 11)).current = Recovery.innermost outer :=
    Recovery.current_eq _
  have size : (behindTest entered (position + 11)).tree.size = before.tree.size + 2 :=
    size_conditioned _
  rw [current, size] at tested
  refine ⟨_, setting.visits_test spans leads between.going (between.closes (enclosed.stays (by omega)))
    opens between.going framed (enclosed.stays (by omega)) tested, ?_, ?_⟩
  · rw [branched, ScriptTree.stating, size_conditioned]
    rfl
  · have height : before.stack.height = base.height := congrArg SlotStack.height between.stack
    have gains := gains_branched before.tree (Recovery.innermost outer) (position + 17)
      (input.program.position target)
    have uncut := uncut_branched (Recovery.innermost outer) (position + 17)
      (input.program.position target) setting.knows between.uncut
    rw [branched, ScriptTree.stating, size_conditioned] at gains uncut
    exact { between with
      framed := between.framed.mono gains.count
      uncut
      scopes := ⟨[], by rw [← height]; rfl, fun _ listed => absurd listed List.not_mem_nil⟩ }

/-- The state in which a loop that ends at a position has been opened. -/
def opening (recovery : Recovery) (limit : Nat) : Recovery :=
  { recovery with
    tree := recovery.tree.stating recovery.current
      (.whileLoop none { start := recovery.position, limit })
    scopes := ⟨recovery.tree.size, recovery.stack.height⟩ :: recovery.scopes
    awaiting := some recovery.tree.size }

theorem node_opening {limit : Nat} (inside : before.current < before.tree.size) :
    (opening before limit).tree.node before.tree.size =
      .whileLoop none { start := before.position, limit } :=
  ScriptTree.node_stating_self _ inside

theorem stays_opening {limit : Nat} (inside : before.current < before.tree.size)
    (early : position < limit) :
    Stays (opening before limit).tree (opening before limit).scopes position where
  inside := by
    show before.tree.size < (before.tree.stating _ _).size
    rw [ScriptTree.size_stating]
    exact Nat.lt_succ_self _
  plain := by
    show ((opening before limit).tree.node before.tree.size).isSwitch = false
    rw [node_opening inside]
    rfl
  beyond := by
    intro scope listed
    obtain rfl : _ = scope := Option.some.inj listed
    exact ⟨_, by rw [node_opening inside]; rfl, early⟩

/-- The condition behind the beginning of a loop is the one that the loop waits for. -/
theorem jumpZero_opening (limit start place next : Nat)
    (inside : before.current < before.tree.size)
    (framed : IsFramed (opening before limit).stack (opening before limit).tree) :
    Runs (jumpZero start limit)
      { holding (opening before limit) place with position := next, track := none } ()
      { behindTest (opening before limit) next with
        tree := looped before.tree before.current before.position limit
        awaiting := none } := by
  have size : (opening before limit).tree.size = before.tree.size + 1 := ScriptTree.size_stating _ _ _
  have takes := takeSlot_holding _ framed place next
  rw [size] at takes
  have old : before.tree.size < (opening before limit).tree.size := by
    rw [size]
    exact Nat.lt_succ_self _
  have kept := (gains_valued (opening before limit).tree before.current).node_of_ne old
    (Nat.ne_of_gt inside)
  have owns : ((valued (opening before limit).tree).node before.tree.size).body? =
      some { start := before.position, limit } := by
    rw [kept, node_opening inside]
    rfl
  let tested : Recovery :=
    { holding (opening before limit) place with position := next, track := none }
  have waits : tested.awaiting = some before.tree.size := rfl
  have same : tested.tree = valued (opening before limit).tree := rfl
  have limited : tested.limit before.tree.size = limit := by
    rw [Recovery.limit, Recovery.range, same, owns]
  have built : looped before.tree before.current before.position limit =
      ((behindTest (opening before limit) next).tree.modify before.tree.size
        (.testing (before.tree.size + 2))).setParent (before.tree.size + 2)
          (some before.tree.size) := rfl
  have runs : Runs (jumpZero start limit) tested () _ := jumpZero_while waits limited takes
  rw [built]
  exact runs

/-- Where the only jump back leads, a loop opens, and its condition is found. -/
theorem IsSetting.visits_loop (setting : IsSetting input main closing) {distance : Int}
    {target latch limit : Nat} (spans : input.program.Spans first position (test distance))
    (leads : Jumps.destination? input.program (first + 2) = some target)
    (lands : input.program.position target = limit)
    (ends : input.program.positionAfter latch = limit) (forward : position + 17 ≤ limit)
    (fits : limit ≤ last) (behind : first < latch) (bound : latch < input.program.commandCount)
    (jumps : input.program.opcode latch = .jump)
    (returns : Jumps.destination? input.program latch = some first)
    (only : ∀ origin, first < origin → origin < input.program.commandCount →
      input.program.opcode origin = .jump →
        Jumps.destination? input.program origin = some first → origin = latch)
    (whole : endsDoLoop input latch = .ok false)
    (between : Between input base outer position before)
    (enclosed : Enclosed before.tree outer last) :
    ∃ opened, Visits input first 3 before opened ∧
      opened.tree = looped before.tree (Recovery.innermost outer) position limit ∧
        Between input base (⟨before.tree.size, base.height⟩ :: outer) (position + 17) opened := by
  subst lands
  have place : input.program.position first = position := spans.head_position
  let entered : Recovery := { before with position, scopes := outer }
  have current : entered.current = Recovery.innermost outer := Recovery.current_eq _
  have inside : entered.current < before.tree.size := by
    rw [current]
    exact enclosed.innermost_inside
  have opens : Runs (openLoops input first) entered ()
      (opening entered (input.program.position target)) := by
    have fitting : entered.escapes (input.program.positionAfter latch) = false :=
      escapes_eq_false enclosed.encloses (by rw [ends]; exact fits)
    have order := setting.increasing.lt_of_lt behind bound
    rw [place] at order
    have before_latch : entered.position < input.program.position latch := order
    have runs := openLoops_while setting.live (by omega) bound jumps returns
      before_latch (fun origin known plain back further => only origin (by
        by_contra early
        have less := setting.increasing.le_of_le (Nat.not_lt.mp early) (by omega)
        rw [place] at less
        exact Nat.lt_irrefl _ (Nat.lt_of_lt_of_le further less)) known plain back) fitting whole
    rw [ends] at runs
    exact runs
  have framed : IsFramed (opening entered (input.program.position target)).stack
      (opening entered (input.program.position target)).tree := by
    have known : IsFramed before.stack before.tree := by
      rw [between.stack]
      exact between.framed
    exact known.mono (ScriptTree.gains_stating _ _ _).count
  have tested := jumpZero_opening (input.program.position target) (position + 17) (position + 6)
    (position + 11) inside framed
  refine ⟨_, setting.visits_test spans leads between.going
    (between.closes (enclosed.stays (by omega))) opens between.going framed
    (stays_opening inside (by omega)) tested, ?_, ?_⟩
  · show looped _ entered.current _ _ = _
    rw [current]
  · have height : before.stack.height = base.height := congrArg SlotStack.height between.stack
    have gains := gains_looped before.tree entered.current position (input.program.position target)
    exact { between with
      settled := rfl
      framed := between.framed.mono gains.count
      uncut := uncut_looped _ _ _ setting.knows between.uncut
      scopes := ⟨[], by rw [← height]; rfl, fun _ listed => absurd listed List.not_mem_nil⟩ }

/-- The innermost scope is still open before the jump at its end. -/
theorem stays_cons {tree : ScriptTree} {scope : Scope} {body : Body}
    (owns : (tree.node scope.node).body? = some body)
    (plain : (tree.node scope.node).isSwitch = false) (early : position < body.limit) :
    Stays tree (scope :: outer) position where
  inside := ScriptTree.lt_of_body? (by rw [Recovery.innermost, owns]; rfl)
  plain := plain
  beyond := by
    intro found listed
    obtain rfl := Option.some.inj listed
    exact ⟨body, owns, early⟩

/-- A plain jump at the end of the innermost scope. -/
theorem IsSetting.visits_jump (setting : IsSetting input main closing) {distance : Int} {target : Nat}
    (spans : input.program.Spans first position [.jump .jump distance])
    (leads : Jumps.destination? input.program first = some target)
    (begins : IsStart input.program target) (closed : IsSealed input.program first (first + 1))
    (between : Between input base outer position before) (stays : Stays before.tree outer position)
    (runs : Runs (if input.program.position target < position then
        backwardJump (input.program.position target) (position + 6)
      else if input.program.position target ≠ position + 6 then
        forwardJump (input.program.position target) (position + 6) false
      else pure ()) { before with scopes := outer, position, track := none } () after) :
    Visits input first 1 before after := by
  have place : input.program.position first = position := spans.head_position
  have inside : first < input.program.commandCount := by
    have bound := spans.inside
    omega
  have behind : input.program.positionAfter first = position + 6 := setting.positionAfter_head spans
  let entered : Recovery := { before with scopes := outer, position }
  have opens : Runs (openLoops input first) entered () entered :=
    setting.openLoops_runs inside closed place.symm
  refine .single between.going (setting.live.alive first inside) (visit_runs ?_ opens ?_)
  · rw [place]
    exact between.closes stays
  · refine execute_jump setting.live inside spans.head.1 (setting.skipsClosure_eq_false inside)
      between.direct leads ?_
    rw [behind, returnsAt_eq_false begins]
    exact runs

/-- The jump behind a guarded body over code that the scopes around it enclose. -/
theorem IsSetting.visits_skip (setting : IsSetting input main closing) {distance : Int} {target : Nat}
    {scope : Scope} {condition : Option NodeId} {body : Body}
    (spans : input.program.Spans first position [.jump .jump distance])
    (leads : Jumps.destination? input.program first = some target)
    (begins : IsStart input.program target) (closed : IsSealed input.program first (first + 1))
    (between : Between input base (scope :: outer) position before)
    (enclosed : Enclosed before.tree outer last)
    (here : before.tree.node scope.node = .branch condition body none)
    (ends : body.limit = position + 6) (longer : position + 6 < input.program.position target)
    (fits : input.program.position target ≤ last) :
    Visits input first 1 before
      { before with
        tree := before.tree.modify scope.node fun _ =>
          .branch condition body (some (input.program.position target))
        scopes := scope :: outer
        position
        track := none } := by
  have stays : Stays before.tree (scope :: outer) position :=
    stays_cons (by rw [here]; rfl) (by rw [here]; rfl) (by omega)
  refine setting.visits_jump spans leads begins closed between stays ?_
  let entered : Recovery := { before with scopes := scope :: outer, position, track := none }
  have scopes : entered.scopes = scope :: outer := rfl
  have forward : ¬input.program.position target < position := by omega
  have further : input.program.position target ≠ position + 6 := by omega
  have jumps := forwardJump_runs scopes here enclosed.encloses fits (by omega)
  rw [ends] at jumps
  exact Runs.ite_neg forward (Runs.ite_pos further jumps)

/-- The jump back at the end of a loop. -/
theorem IsSetting.visits_latch (setting : IsSetting input main closing) {distance : Int} {target : Nat}
    {scope : Scope} {condition : Option NodeId} {body : Body}
    (spans : input.program.Spans first position [.jump .jump distance])
    (leads : Jumps.destination? input.program first = some target)
    (begins : IsStart input.program target) (closed : IsSealed input.program first (first + 1))
    (between : Between input base (scope :: outer) position before)
    (here : before.tree.node scope.node = .whileLoop condition body)
    (starts : body.start = input.program.position target) (ends : body.limit = position + 6)
    (back : input.program.position target < position) :
    Visits input first 1 before { before with scopes := scope :: outer, position, track := none } := by
  have stays : Stays before.tree (scope :: outer) position :=
    stays_cons (by rw [here]; rfl) (by rw [here]; rfl) (by omega)
  refine setting.visits_jump spans leads begins closed between stays ?_
  let entered : Recovery := { before with scopes := scope :: outer, position, track := none }
  have scopes : entered.scopes = scope :: outer := rfl
  have jumps := backwardJump_runs scopes here
  rw [starts, ends] at jumps
  exact Runs.ite_pos back jumps

/-- The else branch opens before its first instruction. -/
theorem Between.visits_else {scope : Scope} {condition : Option NodeId} {body : Body}
    {skip count : Nat} (between : Between input base (scope :: outer) position before)
    (place : input.program.position first = position)
    (scopes : before.scopes = scope :: outer) (enclosed : Enclosed before.tree outer last)
    (here : before.tree.node scope.node = .branch condition body (some skip))
    (ends : body.limit = position) (longer : position < skip) (fits : skip ≤ last)
    (visits : Visits input first (count + 1)
      { before with
        tree := before.tree.stating (Recovery.innermost outer)
          (.otherwise { start := position, limit := skip })
        scopes := ⟨before.tree.size, base.height⟩ :: outer } after) :
    Visits input first (count + 1) before after := by
  subst place
  have height : before.stack.height = base.height := congrArg SlotStack.height between.stack
  have inside := enclosed.innermost_inside
  let entered : Recovery := { before with position := input.program.position first }
  have fitting : Recovery.escapes { entered with scopes := outer } skip = false :=
    escapes_eq_false enclosed.encloses fits
  have entered_scopes : entered.scopes = scope :: outer := scopes
  have closes := closeScopes_else entered_scopes here ends longer inside fitting
  have heights : entered.stack.height = base.height := height
  rw [heights] at closes
  refine visits.of_closes between.going closes (Stays.closes ?_)
  let body : Body := { start := input.program.position first, limit := skip }
  have node : (before.tree.stating (Recovery.innermost outer) (.otherwise body)).node
      before.tree.size = .otherwise body := ScriptTree.node_stating_self _ inside
  have owns := congrArg Node.body? node
  refine stays_cons owns ?_ longer
  rw [node]
  rfl

end Visits

end Structured
end NwScript
