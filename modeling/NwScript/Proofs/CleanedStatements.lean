import NwScript.Proofs.StatementCounts
import NwScript.Proofs.Liveness

/-!
# Statements of cleaned trees

In a proper tree no rule of a cleanup makes a statement that calls an action or takes one out: rules
drop declarations and assignments, and absorbed blocks hand their statements on.  So a cleaned tree
states the same calls, and there are as many as live instructions that call an action without a result.
-/

namespace NwScript
namespace ScriptTree

variable {tree before after : ScriptTree} {host inner new id : NodeId} {statement : Node}
  {left old right : List NodeId} {action : Nat}

/-- Where child statements are no expressions, they all link to their holders. -/
theorem IsStratified.isProper (stratified : tree.IsStratified) {host : Option NodeId}
    (placed : tree.IsPlaced host) (top : ∀ holder, root ∉ tree.children holder) : tree.IsProper :=
  { stratified with
    top
    placed :=
      { placed with linked := fun held => .inl (placed.home held (stratified.children held)) } }

/-- Nodes that change at most their child statements call what they called. -/
theorem calls_congr_of_holding
    (same : ∃ statements, after.node id = (before.node id).holding statements)
    (below : ∀ value, before.node id = .statement value →
      ∃ statements, after.node value = (before.node value).holding statements) :
    after.calls action id = before.calls action id := by
  have callee : ∀ {node : Node} {statements : List NodeId},
      (node.holding statements).callee? = node.callee? := by
    intro node statements
    cases node <;> rfl
  obtain ⟨statements, here⟩ := same
  rw [calls, calls, here]
  cases kind : before.node id with
  | statement value =>
      obtain ⟨_, there⟩ := below value kind
      simp [Node.mapBody, there, callee]
  | _ => simp [Node.mapBody]

section Rewrites

namespace Rewrites

variable (rewrites : Rewrites host new statement left old right before after)

include rewrites

theorem isProper (proper : before.IsProper) : after.IsProper := by
  have placed := proper.placed.some host
  refine IsStratified.isProper ⟨?_, ?_, ?_⟩ (rewrites.isPlaced placed) fun holder held => ?_
  · intro user operand used
    by_cases same : user = new
    · rw [same, rewrites.node_new] at used
      rw [rewrites.isExpression_of_ne (rewrites.ne_of_mem_operands placed used)]
      rcases rewrites.operand_cases used with ⟨former, below⟩ | ⟨_, expression⟩
      · exact proper.operands below
      · exact expression
    · rw [rewrites.operands_of_ne same] at used
      have other : operand ≠ new := by
        rintro rfl
        exact rewrites.not_mem_operands placed user used
      rw [rewrites.isExpression_of_ne other]
      exact proper.operands used
  · intro holder child held
    by_cases same : child = new
    · rw [same, rewrites.node_new, rewrites.plain]
    · rw [rewrites.isExpression_of_ne same]
      exact proper.children ((rewrites.child_cases held).resolve_left fun both => same both.1)
  · intro id expression
    have other : id ≠ new := by
      rintro rfl
      simp [rewrites.node_new, rewrites.plain] at expression
    rw [rewrites.isExpression_of_ne other] at expression
    have bare := proper.bare expression
    have not_host : id ≠ host := by
      rintro rfl
      simp [rewrites.held, rewrites.taken] at bare
    rw [rewrites.children_of_ne not_host, bare]
  · rcases rewrites.child_cases held with ⟨same, _⟩ | there
    · exact rewrites.root_ne_new placed same
    · exact proper.top holder there

/-- Where the old statements own none, what stays hangs as before. -/
theorem hangs_iff (bare : ∀ id ∈ old, before.children id = []) (other : id ≠ new)
    (kept : id ∉ old) : after.Hangs id ↔ before.Hangs id := by
  constructor
  · intro hangs
    refine (chain_of_dropped (· = new) ?_ ?_ hangs).resolve_left other
    · rintro place next rfl held
      rw [Holds, children_eq, rewrites.node_new, Node.statements_eq_nil rewrites.bare] at held
      exact absurd held List.not_mem_nil
    · intro upper lower held other
      exact (rewrites.child_cases held).resolve_left fun both => other both.1
  · intro hangs
    refine (chain_of_dropped (· ∈ old) ?_ ?_ hangs).resolve_left kept
    · intro place next listed held
      rw [Holds, bare place listed] at held
      exact absurd held List.not_mem_nil
    · intro upper lower held kept
      by_cases at_host : upper = host
      · rw [Holds, at_host, rewrites.held] at held
        rw [Holds, at_host, rewrites.children_host]
        simp only [List.mem_append, List.mem_cons] at held ⊢
        tauto
      · rw [Holds, rewrites.children_of_ne at_host]
        exact held

/-- Where the statement is a declaration and takes the place of statements that call nothing, the
statements that call an action hang as before. -/
theorem keepsCalls (proper : before.IsProper) (plain : ∀ value, statement ≠ .statement value)
    (silent : ∀ id ∈ old, before.calls action id = false)
    (bare : ∀ id ∈ old, before.children id = []) : KeepsCalls action before after where
  proper := rewrites.isProper proper
  calls := by
    have placed := proper.placed.some host
    intro id
    by_cases same : id = new
    · have later : after.calls action id = false := by
        rw [← Bool.not_eq_true, calls_iff]
        rintro ⟨value, here, _⟩
        exact plain value (rewrites.node_new.symm.trans (same ▸ here))
      have former : before.calls action id = false := by
        rcases rewrites.place with ⟨fresh, _⟩ | ⟨listed, _⟩
        · exact calls_of_le (Nat.le_of_eq (fresh.symm.trans same.symm))
        · exact same ▸ silent new listed
      simp [later, former]
    · have called : after.calls action id = before.calls action id := by
        refine calls_congr_of_holding (rewrites.exists_node_eq same) fun value here => ?_
        refine rewrites.exists_node_eq ?_
        rintro rfl
        exact rewrites.not_mem_operands placed id (by simp [here, Node.operands])
      rw [called]
      refine and_congr_left fun calls => rewrites.hangs_iff bare same fun listed => ?_
      rw [silent id listed] at calls
      cases calls

end Rewrites
end Rewrites

section Absorbs

namespace Absorbs

variable (absorbs : Absorbs host inner before after)

include absorbs

theorem isProper (proper : before.IsProper) : after.IsProper := by
  have placed := proper.placed.some host
  refine IsStratified.isProper ⟨?_, ?_, ?_⟩ (absorbs.isPlaced placed) fun holder held => ?_
  · intro user operand used
    rw [absorbs.operands] at used
    rw [absorbs.isExpression]
    exact proper.operands used
  · intro holder child held
    rw [absorbs.isExpression]
    rcases absorbs.child_cases placed held with ⟨_, there⟩ | ⟨_, there⟩
    · exact proper.children there
    · exact proper.children there
  · intro id expression
    rw [absorbs.isExpression] at expression
    have bare := proper.bare expression
    have not_host : id ≠ host := by
      rintro rfl
      simp [absorbs.held] at bare
    have not_inner : id ≠ inner := by
      rintro rfl
      simp [Node.not_isExpression_of_isBlock absorbs.block] at expression
    rw [absorbs.children_of_ne not_host not_inner, bare]
  · rcases absorbs.child_cases placed held with ⟨_, there⟩ | ⟨_, there⟩
    · exact proper.top inner there
    · exact proper.top holder there

/-- Chains of child statements to the block lead to the body that takes over its statements, and other
ones lead where they led. -/
theorem chain_cases (proper : before.IsProper) {start : NodeId} (other : start ≠ inner)
    (chain : Relation.ReflTransGen before.Holds start id) :
    id = inner ∧ Relation.ReflTransGen after.Holds start host ∨
      id ≠ inner ∧ Relation.ReflTransGen after.Holds start id := by
  have placed := proper.placed.some host
  induction chain with
  | refl => exact .inr ⟨other, .refl⟩
  | @tail middle last _ held induction =>
      by_cases here : last = inner
      · obtain rfl : middle = host := proper.holder_unique (here ▸ held) absorbs.listed
        have apart := absorbs.inner_ne_host placed
        exact .inl ⟨here, (induction.resolve_left fun both => apart both.1.symm).2⟩
      · refine .inr ⟨here, ?_⟩
        rcases induction with ⟨rfl, above⟩ | ⟨other, above⟩
        · refine above.tail ?_
          rw [Holds, absorbs.children_host]
          exact held
        · refine above.tail ?_
          have not_host : middle ≠ host := by
            rintro rfl
            rw [Holds, absorbs.held, List.mem_singleton] at held
            exact here held
          rw [Holds, absorbs.children_of_ne not_host other]
          exact held

/-- A body that takes over the statements of a block hangs as before, and so do the statements. -/
theorem hangs_cases (proper : before.IsProper) (hangs : before.Hangs id) :
    id = inner ∧ after.Hangs host ∨ id ≠ inner ∧ after.Hangs id := by
  refine absorbs.chain_cases proper ?_ hangs
  rintro rfl
  exact proper.top host absorbs.listed

/-- What hangs afterwards hung before. -/
theorem hangs_of_hangs (proper : before.IsProper) (hangs : after.Hangs id) : before.Hangs id := by
  have placed := proper.placed.some host
  induction hangs with
  | refl => exact .refl
  | tail _ held induction =>
      rcases absorbs.child_cases placed held with ⟨rfl, there⟩ | ⟨_, there⟩
      · exact (induction.tail absorbs.listed).tail there
      · exact induction.tail there

theorem keepsCalls (proper : before.IsProper) : KeepsCalls action before after where
  proper := absorbs.isProper proper
  calls := by
    intro id
    have called : after.calls action id = before.calls action id :=
      calls_congr_of_holding (absorbs.exists_node_eq id) fun value _ => absorbs.exists_node_eq value
    rw [called]
    refine and_congr_left fun calls => ⟨absorbs.hangs_of_hangs proper, fun hangs => ?_⟩
    refine ((absorbs.hangs_cases proper hangs).resolve_left ?_).2
    rintro ⟨rfl, _⟩
    obtain ⟨value, here, _⟩ := calls_iff.mp calls
    simpa [here, Node.isBlock] using absorbs.block

end Absorbs
end Absorbs

section Cleaning

/-- A change that leaves the calls of a proper tree. -/
def Tidying.Keeps (action : Nat) (tidying : Tidying) : Prop :=
  ∀ tree : ScriptTree, tree.IsProper → KeepsCalls action tree (tidying tree).1

theorem Tidying.Keeps.andThen {first second : Tidying} (one : first.Keeps action)
    (other : second.Keeps action) : (first.andThen second).Keeps action :=
  fun tree proper => (one tree proper).trans (other _ (one tree proper).proper)

/-- Where each application of a rule leaves the calls, so does a run of it. -/
theorem keepsCalls_applyAll {α : Type} {rule : ScriptTree → α → Option ScriptTree}
    (applies : ∀ {tree changed : ScriptTree} {place : α}, tree.IsProper →
      rule tree place = some changed → KeepsCalls action tree changed)
    (places : List α) (proper : tree.IsProper) :
    KeepsCalls action tree (applyAll rule places tree).1 := by
  induction places generalizing tree with
  | nil => exact .refl proper
  | cons place places induction =>
      rw [applyAll]
      split
      · rename_i changed applied
        have keeps := applies proper applied
        exact keeps.trans (induction keeps.proper)
      · exact induction proper

theorem flatten_keeps (host : NodeId) : (flatten host).Keeps action := by
  intro tree proper
  refine keepsCalls_applyAll (fun proper applied => ?_) _ proper
  obtain ⟨inner, absorbs⟩ := exists_absorbs (proper.placed.some host) applied
  exact absorbs.keepsCalls proper

/-- No expression stands among statements. -/
theorem IsProper.promote_eq_self (proper : tree.IsProper) (host : NodeId) :
    promote host tree = (tree, 0) := by
  refine applyAll_eq_self fun child held => ?_
  rw [promote?, if_neg]
  simp [proper.children held]

theorem promote_keeps (host : NodeId) : (promote host).Keeps action := by
  intro tree proper
  rw [proper.promote_eq_self]
  exact .refl proper

theorem settle_keeps (host : NodeId) : (settle host).Keeps action := by
  intro tree proper
  exact keepsCalls_applyAll (fun proper applied => (Resembles.of_settle? applied).keepsCalls proper) _
    proper

/-- Declarations of members own no statements. -/
theorem IsRun.children_eq_nil {aggregate : VarId} {run : List NodeId}
    (is_run : tree.IsRun aggregate run) (listed : id ∈ run) : tree.children id = [] := by
  obtain ⟨_, _, here, _⟩ := is_run.declares listed
  rw [children_eq, here]
  rfl

theorem Folds.children_eq_nil {declaration next : NodeId} {var : VarId} {pending : Bool}
    {expression target value : NodeId}
    (folds : tree.Folds declaration next var pending expression target value)
    (listed : id ∈ [declaration, next]) : tree.children id = [] := by
  rw [children_eq]
  rcases List.mem_pair.mp listed with rfl | rfl
  · rw [folds.declares]
    rfl
  · rw [folds.states]
    rfl

/-- Declarations of members call nothing. -/
theorem mergeMembers_keeps (host : NodeId) : (mergeMembers host).Keeps action := by
  intro tree proper
  refine keepsCalls_applyAll (fun {tree changed index} proper applied => ?_) _ proper
  obtain ⟨left, run, right, aggregate, _, split, some_member, is_run, rfl⟩ :=
    exists_run_of_merge? applied
  have rewrites := rewrites_of_isRun (proper.placed.some host) split some_member is_run
  refine rewrites.keepsCalls proper (by simp) (fun id listed => ?_) fun id => is_run.children_eq_nil
  obtain ⟨_, _, here, _⟩ := is_run.declares listed
  rw [calls, here]

/-- What is folded away is an assignment. -/
theorem foldInitializers_keeps (host : NodeId) : (foldInitializers host).Keeps action := by
  intro tree proper
  refine keepsCalls_applyAll (fun {tree changed index} proper applied => ?_) _ proper
  obtain ⟨left, declaration, next, right, _, _, _, _, _, _, split, folds, rfl⟩ :=
    exists_folds_of_foldInitializer? applied
  have rewrites := rewrites_of_folds (proper.placed.some host) split folds
  refine rewrites.keepsCalls proper (by simp) (fun id listed => ?_) fun id => folds.children_eq_nil
  rcases List.mem_pair.mp listed with rfl | rfl
  · rw [calls, folds.declares]
  · simp [calls, folds.states, folds.assigns, Node.callee?]

theorem cleanBody_keeps (host : NodeId) : (cleanBody host).Keeps action := by
  intro tree proper
  rw [cleanBody]
  split
  · exact ((((flatten_keeps host).andThen (promote_keeps host)).andThen (settle_keeps host)).andThen
      (mergeMembers_keeps host)).andThen (foldInitializers_keeps host) tree proper
  · exact .refl proper

theorem cleanAll_keeps (nodes : List NodeId) : (cleanAll nodes).Keeps action := by
  induction nodes with
  | nil => exact fun _ proper => .refl proper
  | cons node nodes induction => exact (cleanBody_keeps node).andThen induction

/-- A cleaned tree states the same calls of actions. -/
theorem cleanup_keepsCalls (proper : tree.IsProper) : KeepsCalls action tree tree.cleanup.1 :=
  cleanAll_keeps tree.walk tree proper

end Cleaning

end ScriptTree

namespace RecoveryInput

open ScriptTree

variable {input : RecoveryInput} {sub action : Nat}

/-- A recovered tree is that of the end state, finished. -/
theorem exists_of_recover {tree : ScriptTree} (recovered : input.recover sub = .ok tree) :
    ∃ last, input.run sub = .ok last ∧ tree = input.finish last.tree := by
  rw [recover] at recovered
  cases ran : input.run sub with
  | error fault =>
      rw [ran] at recovered
      cases recovered
  | ok last =>
      rw [ran] at recovered
      exact ⟨last, rfl, (Except.ok.inj recovered).symm⟩

/-- Without deferred arguments the recovery of a function loses no statement that calls an action
without a result and doubles none: a walk meets as many as there are live instructions that call the
action, each once, and the cleaned tree has the same. -/
theorem recover_states_commands (function : input.layout.globals ≠ some sub)
    (plain : ∀ place ∈ input.program.body sub, (input.program.opcode place).isStateSave = false)
    (command : input.catalog.IsCommand action) {tree : ScriptTree}
    (recovered : input.recover sub = .ok tree) :
    (tree.statedCalls action).Nodup ∧ (tree.cleanup.1.statedCalls action).Perm
        (tree.statedCalls action) ∧
      (tree.statedCalls action).length =
        (input.program.body sub).countP (fun place => input.CallsLive action place) ∧
      (tree.cleanup.1.statedCalls action).length =
        (input.program.body sub).countP fun place => input.CallsLive action place := by
  have kind : input.kind sub = .function := if_neg (Ne.symm function)
  obtain ⟨last, ran, rfl⟩ := exists_of_recover recovered
  obtain ⟨sound, rooted, count⟩ := run_commands kind plain command ran
  have resembles := Resembles.of_finishes (finishes_finish input last.tree)
  have proper := resembles.isProper (rooted.forest.isProper sound.tree)
  have hanging : ∀ {id}, (input.finish last.tree).calls action id →
      (input.finish last.tree).Hangs id := by
    intro id called
    rw [resembles.calls] at called
    rw [Hangs, resembles.holds]
    exact rooted.placed called
  have cleaned := KeepsCalls.perm (@cleanup_keepsCalls _ action proper) proper
  have length := proper.length_statedCalls hanging
  rw [resembles.callCount, count] at length
  exact ⟨proper.nodup_statedCalls, cleaned, length, cleaned.length_eq.trans length⟩

/-- A subroutine that calls an action, calls it again under a condition and returns; a third call
behind the return is dead. -/
def beepingProgram : Program :=
  .ofNonempty
    [[⟨13, ⟨.action, .void, .action 7 0⟩⟩, ⟨18, .constant (.int 1)⟩, ⟨24, .jump .jumpZero 11⟩,
      ⟨30, ⟨.action, .void, .action 7 0⟩⟩, ⟨35, .simple .ret .void⟩,
      ⟨37, ⟨.action, .void, .action 7 0⟩⟩, ⟨42, .simple .ret .void⟩]] (by simp)

/-- The recovery of this subroutine. -/
def beeping : RecoveryInput where
  program := beepingProgram
  table := Liveness.markedTable beepingProgram #[true, true, true, true, true, false, false]
  calls := ⟨.discrete 1, Array.replicate 7 none, [[0]]⟩
  catalog := ⟨[(7, .plain "Beep" .void [])]⟩
  protos := #[{}]
  globals := []
  layout := ⟨0, none, none, none, 0⟩
  names := ["main"]
  settings := {}

/-- The two live calls become two statements. -/
theorem recover_states_commands_beeping : ∃ tree, beeping.recover 0 = .ok tree ∧
    (tree.statedCalls 7).length = 2 ∧ (tree.cleanup.1.statedCalls 7).length = 2 := by
  have recovers : (beeping.recover 0).toOption.isSome := by decide +kernel
  cases recovered : beeping.recover 0 with
  | error fault => simp [recovered, Except.toOption] at recovers
  | ok tree =>
      have command : beeping.catalog.IsCommand 7 := by decide
      obtain ⟨_, _, length, cleaned⟩ := recover_states_commands
        (by decide : beeping.layout.globals ≠ some 0) (by decide) command recovered
      have count : (beeping.program.body 0).countP (fun place => beeping.CallsLive 7 place) = 2 := by
        decide
      exact ⟨tree, rfl, length.trans count, cleaned.trans count⟩

end RecoveryInput
end NwScript
