import NwScript.Proofs.StructuredScopes

/-!
# Recovery of structured code

Wherever its code stands, a statement is replayed into the innermost scope around it and reads as
itself, if all scopes around it end behind the code or with it.  Such scopes may be a branch and
everything around the branch that ends there; they stay open and close before the next instruction.
-/

namespace NwScript
namespace Structured

open Recover

/-- Visiting some instructions writes statements into the innermost of some scopes. -/
structure Written (input : RecoveryInput) (base : SlotStack StackEntry) (outer : List Scope)
    (first count last : Nat) (body : List Structured) (before after : Recovery)
    (children : List NodeId) : Prop where
  /-- The instructions are visited. -/
  visits : Visits input first count before after
  /-- Nothing is left over. -/
  between : Between input base outer last after
  /-- Only the innermost scope gains statements. -/
  gains : before.tree.Gains after.tree (Recovery.innermost outer) children
  /-- They read as the statements. -/
  reads : Reads after.tree before.tree.size body children

/-- Code is recovered as statements wherever it stands. -/
def Recovers (input : RecoveryInput) (code : List Instruction) (body : List Structured) : Prop :=
  ∀ {first position : Nat} {base : SlotStack StackEntry} {outer : List Scope} {before : Recovery},
    input.program.Spans first position code →
      IsSealed input.program first (first + code.length) →
        IsStart input.program (first + code.length) →
          Between input base outer position before →
            Enclosed before.tree outer (position + codeSize code) →
              ∃ after children, Written input base outer first code.length
                (position + codeSize code) body before after children

section Written

variable {input : RecoveryInput} {base : SlotStack StackEntry} {outer : List Scope}
  {first count middle more last : Nat} {body rest : List Structured}
  {before between after : Recovery} {children others : List NodeId}

theorem Written.append
    (one : Written input base outer first count middle body before between children)
    (other : Written input base outer (first + count) more last rest between after others)
    (inside : Recovery.innermost outer < before.tree.size) :
    Written input base outer first (count + more) last (body ++ rest) before after
      (children ++ others) where
  visits := one.visits.append other.visits
  between := other.between
  gains := one.gains.trans other.gains
  reads := (one.reads.transfer (.gains other.gains (.inl inside))).append
    (other.reads.mono one.gains.size)

theorem recovers_nil : Recovers input [] [] := by
  intro first position base outer before spans closed ends between enclosed
  exact ⟨before, [], .done _ _, between, .refl _ _, .nil _⟩

end Written

section Forms

variable {input : RecoveryInput} {main : List Structured} {closing : String} {first position last : Nat}
  {base : SlotStack StackEntry} {outer : List Scope} {before : Recovery}

/-- No plain jump is part of a condition. -/
theorem opcode_ne_of_test {program : Program} {distance : Int}
    (spans : program.Spans first position (test distance)) (origin : Nat) (behind : first + 1 ≤ origin)
    (early : origin < first + 3) : program.opcode origin ≠ .jump := by
  have called := spans.tail.head.1
  have tests := opcode_test spans
  obtain rfl | rfl : origin = first + 1 ∨ origin = first + 2 := by omega
  · rw [Program.opcode, called]
    exact Opcode.noConfusion
  · rw [tests]
    exact Opcode.noConfusion

/-- A print is recovered, whatever follows. -/
theorem IsSetting.written_print (setting : IsSetting input main closing) {text : String}
    (spans : input.program.Spans first position (code (.print text)))
    (closed : IsSealed input.program first (first + 2))
    (between : Between input base outer position before)
    (enclosed : Enclosed before.tree outer (position + codeSize (code (.print text)))) :
    ∃ after children, Written input base outer first 2 (position + codeSize (code (.print text)))
      [.print text] before after children := by
  have place : input.program.position first = position := spans.head_position
  have inside : first < input.program.commandCount := by
    have bound := spans.inside
    omega
  have calm : ∀ origin, first + 1 ≤ origin → origin < first + 2 →
      input.program.opcode origin ≠ .jump := by
    intro origin behind early
    obtain rfl : origin = first + 1 := by omega
    rw [code_print] at spans
    rw [Program.opcode, spans.tail.head.1]
    exact Opcode.noConfusion
  have nothing : AllRegular input.program (first + 1) (first + 2) (first + 2) (first + 2) :=
    fun command behind early => absurd (Nat.lt_of_le_of_lt behind early) (Nat.lt_irrefl _)
  have head := closed.head (Nat.le_succ _) (Nat.le_refl _) calm nothing (Nat.lt_succ_self _)
  let entered : Recovery := { before with position, scopes := outer }
  have opens : Runs (openLoops input first) entered () entered :=
    setting.openLoops_runs inside head place.symm
  have framed : IsFramed before.stack before.tree := by
    rw [between.stack]
    exact between.framed
  have early : input.program.position (first + 1) < position + codeSize (code (.print text)) := by
    rw [code_print] at spans ⊢
    have positive := (Instruction.callAction 1 1).size_pos
    rw [spans.tail.head.2, codeSize_cons, codeSize_cons, codeSize_nil]
    omega
  have first_early : position < position + codeSize (code (.print text)) :=
    Nat.lt_add_of_pos_right (codeSize_pos (code_ne_nil _))
  have visits := setting.visits_print spans between.going (between.closes (enclosed.stays first_early))
    opens between.going framed (enclosed.stays early)
  have current : entered.current = Recovery.innermost outer := Recovery.current_eq _
  rw [current] at visits
  let called := before.tree.calling 1 "PrintString" (.string text)
  have size : called.size = before.tree.size + 2 := before.tree.size_calling _ _ _
  have calling : before.tree.Gains called (Recovery.innermost outer) [] :=
    before.tree.gains_calling _ _ _ _
  have stating : called.Gains (called.stating (Recovery.innermost outer)
      (.statement (before.tree.size + 1))) (Recovery.innermost outer) [called.size] :=
    called.gains_stating _ _
  have parent_inside := Nat.lt_of_lt_of_le enclosed.innermost_inside calling.size
  have uncut : called.Uncut input.catalog :=
    between.uncut.calling _ _ _ (hasNoDefaults_print setting.knows _)
  have statement : (Node.statement (before.tree.size + 1)).HasNoDefaults input.catalog := trivial
  have calls := (calls_calling before.tree 1 "PrintString" (.string text)).transfer
    (.gains stating (.inl enclosed.innermost_inside))
  refine ⟨_, _, visits, ?_, calling.trans stating, ?_⟩
  · exact { between with
      framed := between.framed.mono (calling.trans stating).count
      uncut := uncut.stating _ statement
      scopes := ⟨[], rfl, fun _ listed => absurd listed List.not_mem_nil⟩ }
  · refine .print ?_ (ScriptTree.node_stating_self _ parent_inside) calls (.nil _)
    show before.tree.size ≤ called.size ∧ called.size < (called.stating _ _).size
    rw [ScriptTree.size_stating, size]
    exact ⟨Nat.le_add_right _ _, Nat.lt_succ_self _⟩

/-- Visiting a condition and the body behind it opens a branch that holds statements. -/
structure Guarded (input : RecoveryInput) (base : SlotStack StackEntry) (outer : List Scope)
    (first count position last limit : Nat) (body : List Structured) (before after : Recovery)
    (children : List NodeId) : Prop where
  /-- The instructions are visited. -/
  visits : Visits input first count before after
  /-- The branch is open. -/
  between : Between input base (⟨before.tree.size + 2, base.height⟩ :: outer) last after
  /-- The innermost scope gains the branch. -/
  gains : before.tree.Gains after.tree (Recovery.innermost outer) [before.tree.size + 2]
  /-- The branch exists. -/
  inside : before.tree.size + 2 < after.tree.size
  /-- It holds statements. -/
  here : after.tree.node (before.tree.size + 2) =
    .branch (some (before.tree.size + 1)) { start := position + 17, limit, children } none
  /-- It has a condition. -/
  calls : Calls after.tree before.tree.size 0 "Random" (.int 2) (before.tree.size + 1)
    before.tree.size
  /-- The statements read as the body. -/
  guards : Reads after.tree (before.tree.size + 3) body children

theorem IsSetting.guarded (setting : IsSetting input main closing) {body : List Structured}
    {distance : Int} {target limit : Nat} (inner : Recovers input (codes body) body)
    (guard : input.program.Spans first position (test distance))
    (spans : input.program.Spans (first + 3) (position + 17) (codes body))
    (leads : Jumps.destination? input.program (first + 2) = some target)
    (lands : input.program.position target = limit)
    (forward : position + 17 + codeSize (codes body) ≤ limit) (fits : limit ≤ last)
    (head : IsSealed input.program first (first + 1))
    (closed : IsSealed input.program (first + 3) (first + 3 + (codes body).length))
    (ends : IsStart input.program (first + 3 + (codes body).length))
    (between : Between input base outer position before)
    (enclosed : Enclosed before.tree outer last) :
    ∃ after children, Guarded input base outer first (3 + (codes body).length) position
      (position + 17 + codeSize (codes body)) limit body before after children := by
  have parent_inside := enclosed.innermost_inside
  obtain ⟨opened, visits, tree, opened_between⟩ := setting.visits_branch guard leads lands
    (by omega) fits head between enclosed
  have size : opened.tree.size = before.tree.size + 3 := by rw [tree, size_branched]
  have node : opened.tree.node (before.tree.size + 2) =
      .branch (some (before.tree.size + 1)) { start := position + 17, limit } none := by
    rw [tree]
    exact node_branched _ _ parent_inside
  have opening : before.tree.Gains opened.tree (Recovery.innermost outer) [before.tree.size + 2] := by
    rw [tree]
    exact gains_branched _ _ _ _
  have calls : Calls opened.tree before.tree.size 0 "Random" (.int 2) (before.tree.size + 1)
      before.tree.size := by
    rw [tree]
    exact calls_branched _ _ parent_inside
  have inside : before.tree.size + 2 < opened.tree.size := by omega
  have within : Enclosed opened.tree (⟨before.tree.size + 2, base.height⟩ :: outer)
      (position + 17 + codeSize (codes body)) := by
    refine ((enclosed.mono (by omega)).gains opening).cons inside ?_
    rw [node]
    exact forward
  obtain ⟨after, children, written⟩ := inner spans closed ends opened_between within
  have filled : after.tree.node (before.tree.size + 2) =
      (opened.tree.node (before.tree.size + 2)).mapBody (Body.addingAll children) :=
    written.gains.node_self inside
  rw [node] at filled
  exact ⟨after, children, {
    visits := visits.append written.visits
    between := written.between
    gains := opening.inner written.gains (Nat.le_add_right _ _)
    inside := Nat.lt_of_lt_of_le inside written.gains.size
    here := filled
    calls := calls.gains written.gains ⟨Nat.ne_of_lt (Nat.lt_succ_self _),
      Nat.ne_of_lt (Nat.lt_add_of_pos_right Nat.two_pos)⟩
    guards := written.reads.mono (Nat.le_of_eq size.symm) }⟩

/-- A branch is recovered if its body is. -/
theorem IsSetting.recovers_branch (setting : IsSetting input main closing) {body : List Structured}
    (inner : Recovers input (codes body) body) :
    Recovers input (code (.branch body)) [.branch body] := by
  intro first position base outer before spans closed ends between enclosed
  obtain ⟨guard, inner_spans, leads⟩ := branchParts setting.increasing spans
  rw [codeSize_branch, ← Nat.add_assoc] at enclosed ⊢
  rw [length_branch] at closed ends ⊢
  rw [← Nat.add_assoc] at closed ends
  have regular := allRegular_codes setting.increasing body inner_spans ends
  have head := closed.head (by omega) (by omega) (opcode_ne_of_test guard) regular (by omega)
  obtain ⟨after, children, guarded⟩ := setting.guarded inner guard inner_spans leads
    inner_spans.behind (Nat.le_refl _) (Nat.le_refl _) head (closed.right (by omega)) ends between
    enclosed
  exact ⟨after, [before.tree.size + 2], {
    visits := guarded.visits
    between := guarded.between.leave (by rw [guarded.here]; exact Nat.le_refl _)
    gains := guarded.gains
    reads := .branch ⟨Nat.le_add_right _ _, guarded.inside⟩ guarded.here guarded.calls
      guarded.guards (.nil _) }⟩

/-- The jump behind a guarded body and the beginning of the else branch behind it. -/
theorem IsSetting.forks (setting : IsSetting input main closing) {distance : Int} {target limit : Nat}
    {earlier : ScriptTree} {scope : Scope} {condition : Option NodeId} {body : Body}
    {children : List NodeId} (spans : input.program.Spans first position [.jump .jump distance])
    (leads : Jumps.destination? input.program first = some target)
    (lands : input.program.position target = limit) (begins : IsStart input.program target)
    (closed : IsSealed input.program first (first + 1))
    (between : Between input base (scope :: outer) position before)
    (enclosed : Enclosed earlier outer last)
    (gains : earlier.Gains before.tree (Recovery.innermost outer) children)
    (new : earlier.size ≤ scope.node) (here : before.tree.node scope.node = .branch condition body none)
    (ends : body.limit = position + 6) (longer : position + 6 < limit) (fits : limit ≤ last) :
    ∃ opened : Recovery,
      opened.tree = forked before.tree (Recovery.innermost outer) (position + 6) limit scope.node
          (.branch condition body (some limit)) ∧
        Between input base (⟨before.tree.size, base.height⟩ :: outer) (position + 6) opened ∧
          ∀ {count : Nat} {after : Recovery}, Visits input (first + 1) (count + 1) opened after →
            Visits input first (1 + (count + 1)) before after := by
  subst lands
  have inside : scope.node < before.tree.size := ScriptTree.lt_of_body? (by rw [here]; rfl)
  have skips := setting.visits_skip spans leads begins closed between (enclosed.gains gains) here ends
    longer fits
  let node : Node := .branch condition body (some (input.program.position target))
  let marked := before.tree.modify scope.node fun _ => node
  let skipped : Recovery :=
    { before with tree := marked, scopes := scope :: outer, position, track := none }
  have size : marked.size = before.tree.size := ScriptTree.size_modify _ _ _
  have marks : earlier.Gains marked (Recovery.innermost outer) children := gains.modify new _
  have uncut : marked.Uncut input.catalog := between.uncut.modify trivial
  have skipped_between : Between input base (scope :: outer) (position + 6) skipped :=
    { between with
      uncut
      scopes := ⟨[], rfl, fun _ listed => absurd listed List.not_mem_nil⟩ }
  have place : input.program.position (first + 1) = position + 6 := spans.behind
  have marked_here : marked.node scope.node = node := ScriptTree.node_modify_self inside _
  refine ⟨{ skipped with
    tree := forked before.tree (Recovery.innermost outer) (position + 6)
      (input.program.position target) scope.node node
    scopes := ⟨before.tree.size, base.height⟩ :: outer }, rfl, ?_, fun visits => ?_⟩
  · exact { skipped_between with
      framed := between.framed.mono (ScriptTree.gains_stating marked _ _).count
      uncut := uncut.stating _ trivial
      scopes := ⟨[], rfl, fun _ listed => absurd listed List.not_mem_nil⟩ }
  · refine skips.append (skipped_between.visits_else place rfl (enclosed.gains marks) marked_here ends
      longer fits ?_)
    have spelled : skipped.tree.size = before.tree.size := size
    rw [spelled]
    exact visits

/-- A branch with an else branch is recovered if its bodies are. -/
theorem IsSetting.recovers_branchElse (setting : IsSetting input main closing)
    {body other : List Structured} (nonempty : other ≠ []) (inner : Recovers input (codes body) body)
    (outside : Recovers input (codes other) other) :
    Recovers input (code (.branchElse body other)) [.branchElse body other] := by
  intro first position base outer before spans closed ends between enclosed
  have parts := elseParts setting.increasing spans
  have positive := codeSize_pos (codes_ne_nil nonempty)
  rw [codeSize_branchElse, ← Nat.add_assoc, ← Nat.add_assoc, ← Nat.add_assoc] at enclosed ⊢
  rw [length_branchElse] at closed ends ⊢
  rw [← Nat.add_assoc, ← Nat.add_assoc, ← Nat.add_assoc] at closed ends
  have joins := isStart_of_head parts.skip (.inr rfl)
  have regular := allRegular_codes setting.increasing body parts.inner joins
  have other_regular := allRegular_codes setting.increasing other parts.outer ends
  have skip_regular := parts.allRegular_skip ends other_regular
  have head : IsSealed input.program first (first + 1) :=
    closed.head (by omega) (by omega) (opcode_ne_of_test parts.guard)
      ((regular.mono (Nat.le_refl _) (by omega)).append (skip_regular.mono (by omega) (Nat.le_refl _)))
      (by omega)
  have inner_closed : IsSealed input.program (first + 3) (first + 3 + (codes body).length) :=
    (closed.right (by omega)).left (by omega) fun origin behind early jumps target leads =>
      .inr (skip_regular.low_le behind early jumps leads)
  have skip_closed : IsSealed input.program (first + 3 + (codes body).length)
      (first + 3 + (codes body).length + 1) :=
    (closed.right (by omega)).left (by omega) fun origin behind early jumps target leads =>
      .inr (other_regular.low_le behind early jumps leads)
  obtain ⟨middle, children, guarded⟩ := setting.guarded inner parts.guard parts.inner parts.leads
    parts.outer.head_position (by omega) (by omega) head inner_closed joins between enclosed
  obtain ⟨opened, tree, opened_between, opens⟩ := setting.forks parts.skip parts.skips
    parts.outer.behind ends skip_closed guarded.between enclosed guarded.gains
    (Nat.le_add_right _ _) guarded.here rfl (by omega) (Nat.le_refl _)
  have gains : before.tree.Gains opened.tree (Recovery.innermost outer)
      [before.tree.size + 2, middle.tree.size] := by
    rw [tree]
    exact gains_forked _ _ _ guarded.gains (Nat.le_add_right _ _)
  have middle_inside : Recovery.innermost outer < middle.tree.size :=
    Nat.lt_of_lt_of_le enclosed.innermost_inside guarded.gains.size
  have there : opened.tree.node middle.tree.size = .otherwise
      { start := position + 17 + codeSize (codes body) + 6,
        limit := position + 17 + codeSize (codes body) + 6 + codeSize (codes other) } := by
    rw [tree]
    exact node_forked_other _ _ _ middle_inside
  have other_inside : middle.tree.size < opened.tree.size := by
    rw [tree, size_forked]
    exact Nat.lt_succ_self _
  have within : Enclosed opened.tree (⟨middle.tree.size, base.height⟩ :: outer)
      (position + 17 + codeSize (codes body) + 6 + codeSize (codes other)) := by
    refine (enclosed.gains gains).cons other_inside ?_
    rw [there]
    exact Nat.le_refl _
  obtain ⟨after, others, written⟩ := outside parts.outer (closed.right (by omega)) ends opened_between
    within
  have branch_inside := guarded.inside
  have above : ∀ {id : NodeId}, before.tree.size ≤ id → id ≠ Recovery.innermost outer :=
    fun new => Nat.ne_of_gt (Nat.lt_of_lt_of_le enclosed.innermost_inside new)
  have size : middle.tree.size ≤ after.tree.size :=
    Nat.le_trans (Nat.le_of_lt other_inside) written.gains.size
  have kept : ∀ id, id < middle.tree.size → id ≠ before.tree.size + 2 →
      id ≠ Recovery.innermost outer → after.tree.node id = middle.tree.node id := by
    intro id old different aside
    rw [written.gains.node_of_ne (Nat.lt_trans old other_inside) (Nat.ne_of_lt old), tree,
      node_forked_of_ne _ _ _ old different aside]
  have here : after.tree.node (before.tree.size + 2) = .branch (some (before.tree.size + 1))
      { start := position + 17, limit := position + 17 + codeSize (codes body) + 6, children }
      (some (position + 17 + codeSize (codes body) + 6 + codeSize (codes other))) := by
    rw [written.gains.node_of_ne (Nat.lt_trans branch_inside other_inside)
      (Nat.ne_of_lt branch_inside), tree]
    exact node_forked_branch _ _ _ branch_inside (above (Nat.le_add_right _ _))
  have other_here : after.tree.node middle.tree.size =
      (opened.tree.node middle.tree.size).mapBody (Body.addingAll others) :=
    written.gains.node_self other_inside
  rw [there] at other_here
  have calls : Calls after.tree before.tree.size 0 "Random" (.int 2) (before.tree.size + 1)
      before.tree.size :=
    { calls := (kept _ (Nat.lt_of_succ_lt branch_inside) (Nat.ne_of_lt (Nat.lt_succ_self _))
        (above (Nat.le_succ _))).trans guarded.calls.calls
      passes := (kept _ (Nat.lt_of_le_of_lt (Nat.le_add_right _ _) branch_inside)
        (Nat.ne_of_lt (Nat.lt_add_of_pos_right Nat.two_pos)) (above (Nat.le_refl _))).trans
          guarded.calls.passes
      call_inside := ⟨Nat.le_succ _, Nat.lt_of_lt_of_le (Nat.lt_of_succ_lt branch_inside) size⟩
      literal_inside := ⟨Nat.le_refl _, Nat.lt_of_lt_of_le
        (Nat.lt_of_le_of_lt (Nat.le_add_right _ _) branch_inside) size⟩ }
  have guards : Reads after.tree (before.tree.size + 3) body children :=
    guarded.guards.transfer ⟨size, fun id new old => kept id old (Nat.ne_of_gt new)
      (above (Nat.le_trans (Nat.le_add_right _ 3) new))⟩
  have skips : Reads after.tree (middle.tree.size + 1) other others := by
    have read := written.reads
    rwa [tree, size_forked] at read
  obtain ⟨count, length⟩ := Nat.exists_eq_succ_of_ne_zero (List.length_pos_iff.mpr
    (codes_ne_nil nonempty)).ne'
  have visits := written.visits
  rw [length] at visits
  have forked_visits := opens visits
  rw [Nat.add_assoc first] at forked_visits
  refine ⟨after, [before.tree.size + 2, middle.tree.size], {
    visits := ?_
    between := written.between.leave (by rw [other_here]; exact Nat.le_refl _)
    gains := gains.inner written.gains guarded.gains.size
    reads := .branchElse ⟨Nat.le_add_right _ _, Nat.lt_of_lt_of_le branch_inside size⟩
      ⟨guarded.gains.size, Nat.lt_of_lt_of_le other_inside written.gains.size⟩ here other_here calls
      guards skips (.nil _) }⟩
  have whole := guarded.visits.append forked_visits
  rw [length]
  simpa only [Nat.add_assoc] using whole

/-- A loop is recovered if its body is. -/
theorem IsSetting.recovers_loop (setting : IsSetting input main closing) {body : List Structured}
    (nonempty : body ≠ []) (filled : AllFilled body) (inner : Recovers input (codes body) body) :
    Recovers input (code (.loop body)) [.loop body] := by
  intro first position base outer before spans closed ends between enclosed
  obtain ⟨guard, inner_spans, latch, leads, returns⟩ := loopParts setting.increasing spans
  have parent_inside := enclosed.innermost_inside
  rw [codeSize_loop, ← Nat.add_assoc, ← Nat.add_assoc] at enclosed ⊢
  rw [length_loop] at closed ends ⊢
  rw [← Nat.add_assoc, ← Nat.add_assoc] at closed ends
  have joins := isStart_of_head latch (.inr rfl)
  have begins := isStart_of_head guard (.inl rfl)
  have regular := allRegular_codes setting.increasing body inner_spans joins
  have latch_jumps : input.program.opcode (first + 3 + (codes body).length) = .jump := by
    rw [Program.opcode, latch.head.1]
    rfl
  have only : ∀ origin, first < origin → origin < input.program.commandCount →
      input.program.opcode origin = .jump →
        Jumps.destination? input.program origin = some first →
          origin = first + 3 + (codes body).length := by
    intro origin behind inside jumps back
    by_cases early : origin < first + 3
    · exact absurd jumps (opcode_ne_of_test guard origin behind early)
    · by_cases within : origin < first + 3 + (codes body).length
      · have low := regular.low_le (Nat.not_lt.mp early) within jumps back
        omega
      · by_contra other
        have aside := closed origin (by omega) inside jumps first back
        omega
  have landing : input.program.position (first + 3 + (codes body).length + 1) =
      position + 17 + codeSize (codes body) + 6 := latch.behind
  have bound : first + 3 + (codes body).length < input.program.commandCount :=
    Nat.lt_of_succ_lt latch.inside
  obtain ⟨opened, visits, tree, opened_between⟩ := setting.visits_loop guard leads landing
    (setting.positionAfter_head latch) (by omega) (Nat.le_refl _) (by omega) bound latch_jumps returns
    only (setting.endsDoLoop_eq_false filled nonempty inner_spans) between enclosed
  have node : opened.tree.node before.tree.size = .whileLoop (some (before.tree.size + 2))
      { start := position, limit := position + 17 + codeSize (codes body) + 6 } := by
    rw [tree]
    exact node_looped _ _ parent_inside
  have opening : before.tree.Gains opened.tree (Recovery.innermost outer) [before.tree.size] := by
    rw [tree]
    exact gains_looped _ _ _ _
  have calls : Calls opened.tree (before.tree.size + 1) 0 "Random" (.int 2) (before.tree.size + 2)
      (before.tree.size + 1) := by
    rw [tree]
    exact calls_looped _ _ _ _
  have inside : before.tree.size < opened.tree.size := by
    rw [tree, size_looped]
    exact Nat.lt_add_of_pos_right (Nat.succ_pos 2)
  have within : Enclosed opened.tree (⟨before.tree.size, base.height⟩ :: outer)
      (position + 17 + codeSize (codes body)) := by
    refine ((enclosed.mono (Nat.le_add_right _ 6)).gains opening).cons inside ?_
    rw [node]
    exact Nat.lt_add_of_pos_right (Nat.succ_pos 5)
  have inner_closed : IsSealed input.program (first + 3) (first + 3 + (codes body).length) := by
    refine (closed.right (by omega)).left (Nat.le_succ _) fun origin behind early jumps target back =>
      .inl ?_
    obtain rfl : origin = first + 3 + (codes body).length := by omega
    obtain rfl : first = target := Option.some.inj (returns.symm.trans back)
    omega
  obtain ⟨after, children, written⟩ := inner inner_spans inner_closed joins opened_between within
  have here : after.tree.node before.tree.size =
      (opened.tree.node before.tree.size).mapBody (Body.addingAll children) :=
    written.gains.node_self inside
  rw [node] at here
  have latch_visits := setting.visits_latch latch returns begins (closed.right (by omega))
    written.between here guard.head_position.symm rfl (by rw [guard.head_position]; omega)
  have finished := written.between.closed (position + 17 + codeSize (codes body) + 6)
    (position + 17 + codeSize (codes body))
  refine ⟨_, [before.tree.size], {
    visits := ?_
    between := finished.leave (by
      show (after.tree.node before.tree.size).EndsBy _
      rw [here]
      exact Nat.le_refl _)
    gains := opening.inner written.gains (Nat.le_refl _)
    reads := .loop ⟨Nat.le_refl _, Nat.lt_of_lt_of_le inside written.gains.size⟩ here
      ((calls.gains written.gains ⟨Nat.ne_of_gt (Nat.lt_add_of_pos_right Nat.two_pos),
        Nat.ne_of_gt (Nat.lt_succ_self _)⟩).mono (Nat.le_succ _)) ?_ (.nil _) }⟩
  · have whole := visits.append (written.visits.append latch_visits)
    simpa only [Nat.add_assoc] using whole
  · refine written.reads.mono ?_
    rw [tree, size_looped]
    exact Nat.succ_le_succ (Nat.le_add_right _ 2)

/-- A print is recovered. -/
theorem IsSetting.recovers_print (setting : IsSetting input main closing) (text : String) :
    Recovers input (code (.print text)) [.print text] := by
  intro first position base outer before spans closed ends between enclosed
  exact setting.written_print spans closed between enclosed

/-- Statements are recovered if the first one and the others are. -/
theorem IsSetting.recovers_cons (setting : IsSetting input main closing) {statement : Structured}
    {rest : List Structured} (head : Recovers input (code statement) [statement])
    (tail : Recovers input (codes rest) rest) :
    Recovers input (codes (statement :: rest)) (statement :: rest) := by
  intro first position base outer before spans closed ends between enclosed
  rw [codes_cons] at spans closed ends enclosed ⊢
  rw [codeSize_append, ← Nat.add_assoc] at enclosed ⊢
  rw [List.length_append] at closed ends ⊢
  rw [← Nat.add_assoc] at closed ends
  have begins := isStart_codes rest spans.right ends
  have regular := allRegular_codes setting.increasing rest spans.right ends
  have head_closed : IsSealed input.program first (first + (code statement).length) :=
    closed.left (Nat.le_add_right _ _) fun origin behind early jumps target leads =>
      .inr (regular.low_le behind early jumps leads)
  obtain ⟨middle, children, one⟩ := head spans.left head_closed begins between
    (enclosed.mono (Nat.le_add_right _ _))
  obtain ⟨after, others, other⟩ := tail spans.right (closed.right (Nat.le_add_right _ _)) ends
    one.between (enclosed.gains one.gains)
  exact ⟨after, children ++ others, one.append other enclosed.innermost_inside⟩

mutual

/-- A statement is recovered. -/
theorem IsSetting.recovers_code (setting : IsSetting input main closing) :
    (statement : Structured) → Filled statement → Recovers input (code statement) [statement]
  | .print text, _ => setting.recovers_print text
  | .branch body, filled => setting.recovers_branch (setting.recovers_codes body filled.2)
  | .branchElse body other, filled =>
      setting.recovers_branchElse filled.2.1 (setting.recovers_codes body filled.1.2)
        (setting.recovers_codes other filled.2.2)
  | .loop body, filled =>
      setting.recovers_loop filled.1 filled.2 (setting.recovers_codes body filled.2)

/-- Statements are recovered in order. -/
theorem IsSetting.recovers_codes (setting : IsSetting input main closing) :
    (body : List Structured) → AllFilled body → Recovers input (codes body) body
  | [], _ => recovers_nil
  | statement :: rest, filled =>
      setting.recovers_cons (setting.recovers_code statement filled.1)
        (setting.recovers_codes rest filled.2)

end

end Forms

end Structured
end NwScript
