import Mathlib.Algebra.Order.BigOperators.Group.List
import NwScript.Proofs.NestedScopes
import NwScript.Proofs.TidiedLabels

/-!
# Calls of a recovered tree

Every call of an action in a recovered tree is the call that some live instruction of the subroutine
makes.  An action without a result is called by a statement, of which there is one for each such
instruction.  A call with a result is a value, and a value that is used while a copy of it is still on
the stack is copied with the call in it.
-/

namespace NwScript
namespace ScriptTree

/-- The actions that are called by nodes that a walk meets, one for each such node. -/
def calledActions (tree : ScriptTree) : List Nat :=
  tree.walk.filterMap fun id => (tree.node id).callee?

/-- Only statements use the results of an action. -/
def StatesOnly (action : Nat) (tree : ScriptTree) : Prop :=
  ∀ user operand, operand ∈ (tree.node user).operands →
    (tree.node operand).callee? = some action → tree.node user = .statement operand

section Statements

variable {action : Nat} {before after tree changed : ScriptTree} {node : NodeId}

theorem callee?_of_not_isExpression {node : Node} (statement : node.isExpression = false) :
    node.callee? = none := by
  cases node with
  | action => cases statement
  | _ => rfl

theorem StatesOnly.of_rearranges {extra : List NodeId} (stated : before.StatesOnly action)
    (rearranges : Rearranges extra before after) : after.StatesOnly action := by
  intro user operand used called
  rw [rearranges.operands] at used
  rw [Node.callee?_congr (rearranges.outline operand)] at called
  have here := stated user operand used called
  refine Node.outline_eq_statement ?_
  rw [rearranges.outline, here]
  rfl

/-- A node is added that is no call and uses none, unless it states it. -/
theorem StatesOnly.add (stated : tree.StatesOnly action) {node : Node} (other : node.callee? = none)
    (states : node.operands = [] ∨ ∃ value, node = .statement value) :
    (tree.add node).1.StatesOnly action := by
  intro user operand used called
  rw [node_add, Function.update_apply] at used called ⊢
  split at called
  · rw [other] at called
    cases called
  split at used
  · rename_i here
    rw [if_pos here]
    rcases states with none_used | ⟨value, rfl⟩
    · rw [none_used] at used
      exact absurd used List.not_mem_nil
    · rw [List.mem_singleton.mp used]
  · rename_i elsewhere
    rw [if_neg elsewhere]
    exact stated user operand used called

/-- A declaration changes and uses no call. -/
theorem StatesOnly.modify (stated : tree.StatesOnly action) {id : NodeId} {change : Node → Node}
    (declares : ∃ var init pending, change (tree.node id) = .declaration var init pending ∧
      ∀ value, init = some value → (tree.node value).callee? ≠ some action) :
    (tree.modify id change).StatesOnly action := by
  obtain ⟨var, init, pending, same, uses⟩ := declares
  have callees : ∀ other, ((tree.modify id change).node other).callee? = some action →
      (tree.node other).callee? = some action := by
    intro other called
    rcases node_modify_cases tree id other change with kept | ⟨rfl, changed⟩
    · rwa [kept] at called
    · rw [changed, same] at called
      cases called
  intro user operand used called
  have former := callees operand called
  rcases node_modify_cases tree id user change with kept | ⟨rfl, changed⟩
  · rw [kept] at used ⊢
    exact stated user operand used former
  · rw [changed, same] at used
    exact absurd former (uses operand (by simpa [Node.operands] using used))

/-- A cleanup moves calls from statement to statement only. -/
theorem statesOnly_cleanup (stated : tree.StatesOnly action) : tree.cleanup.1.StatesOnly action := by
  refine cleanup_induction (fun {tree changed node} stated applied => ?_)
    (fun {tree changed node child} stated applied => ?_) (fun {tree changed child} stated applied => ?_)
    (fun {tree changed node index} stated applied => ?_)
    (fun {tree changed node index} stated applied => ?_) stated
  · unfold absorb? at applied
    split at applied
    · split at applied
      · cases applied
        exact StatesOnly.of_rearranges (stated.of_rearranges (.detach _ _)) (.move _ _ _)
      · cases applied
    · cases applied
  · unfold promote? at applied
    split at applied
    · split at applied
      · rename_i detached index taken
        cases applied
        have first : detached.StatesOnly action := by
          rw [show detached = (tree.detach child).1 by rw [taken]]
          exact stated.of_rearranges (.detach tree child)
        exact StatesOnly.of_rearranges (first.add rfl (.inr ⟨child, rfl⟩)) (.insert _ _ _ _)
      · cases applied
    · cases applied
  · unfold settle? at applied
    split at applied
    · rename_i var init here
      cases applied
      refine stated.modify ⟨var, init, false, rfl, fun value initial called => ?_⟩
      subst initial
      have states := stated child value (by rw [here]; exact List.mem_singleton_self value) called
      rw [here] at states
      cases states
    · cases applied
  · obtain ⟨_, run, _, aggregate, _, _, _, _, rfl⟩ := exists_run_of_merge? applied
    have added : (tree.add (.declaration aggregate none false)).1.StatesOnly action :=
      stated.add rfl (.inl rfl)
    have replaced := added.of_rearranges (.replaceAll _ tree.size run)
    obtain ⟨vars, same, -⟩ := exists_declareWhole_eq
      ((tree.add (.declaration aggregate none false)).1.replaceAll tree.size run) aggregate tree.size
    rw [same]
    exact replaced
  · obtain ⟨_, declaration, next, _, var, pending, expression, target, value, _, _, folds, rfl⟩ :=
      exists_folds_of_foldInitializer? applied
    have uses : (tree.node value).callee? ≠ some action := by
      intro called
      have states := stated expression value (by rw [folds.assigns]; simp [Node.operands]) called
      rw [folds.assigns] at states
      cases states
    have folded : (tree.modify declaration fun _ => .declaration var (some value) pending).StatesOnly
        action := stated.modify ⟨var, some value, pending, rfl, fun _ same => Option.some.inj same ▸ uses⟩
    have linked : ((tree.modify declaration fun _ => .declaration var (some value) pending).setParent
        value (some declaration)).StatesOnly action := folded
    exact linked.of_rearranges (.detach _ _)

end Statements

section Counts

variable {action : Nat} {tree : ScriptTree} {catalog : ActionCatalog}

/-- Values are no calls of an action without a result, so only statements use these. -/
theorem IsSound.statesOnly (sound : tree.IsSound catalog) (command : catalog.IsCommand action) :
    tree.StatesOnly action := by
  intro user operand used called
  rcases sound.operands used with value | ⟨-, -, states⟩
  · have plain := value.plain
    rw [Node.isCommand_of_callee? called command] at plain
    cases plain
  · exact states

theorem StatesOnly.finish (stated : tree.StatesOnly action) (input : RecoveryInput) :
    (input.finish tree).StatesOnly action := by
  have finishes := finishes_finish input tree
  have resembles := Resembles.of_finishes finishes
  intro user operand used called
  rw [resembles.callee?] at called
  exact resembles.states.mpr (stated user operand (finishes.operands user used) called)

/-- A walk meets no more calls of an action than statements that call it, but for one where it begins. -/
theorem countP_walkFrom_le (stated : tree.StatesOnly action)
    (children : ∀ holder child, child ∈ tree.children holder → (tree.node child).callee? ≠ some action)
    (depth : Nat) (id : NodeId) :
    (tree.walkFrom depth id).countP (fun met => (tree.node met).callee? = some action) ≤
      (tree.walkFrom depth id).countP (tree.calls action) +
        if (tree.node id).callee? = some action then 1 else 0 := by
  induction depth generalizing id with
  | zero => exact Nat.zero_le _
  | succ depth induction =>
      rw [walkFrom, List.countP_cons, List.countP_cons]
      by_cases states : ∃ value, tree.node id = .statement value ∧ (tree.node value).callee? = some action
      · obtain ⟨value, here, called⟩ := states
        have below : (tree.node id).operands ++ tree.children id = [value] := by
          rw [children_eq, here]
          rfl
        have calling : tree.calls action id := calls_iff.mpr ⟨value, here, called⟩
        have silent : (tree.node id).callee? = none := by
          rw [here]
          rfl
        have deeper := induction value
        rw [if_pos called] at deeper
        rw [below, List.flatMap_singleton]
        simpa [silent, calling] using deeper
      · have silent : ∀ lower ∈ (tree.node id).operands ++ tree.children id,
            (tree.node lower).callee? ≠ some action := by
          intro lower listed called
          rcases List.mem_append.mp listed with used | held
          · exact states ⟨lower, stated id lower used called, called⟩
          · exact children id lower held called
        have deeper : (((tree.node id).operands ++ tree.children id).flatMap (tree.walkFrom depth)).countP
            (fun met => (tree.node met).callee? = some action) ≤
              (((tree.node id).operands ++ tree.children id).flatMap (tree.walkFrom depth)).countP
                (tree.calls action) := by
          rw [List.countP_flatMap, List.countP_flatMap]
          refine List.sum_le_sum fun lower listed => ?_
          have bound := induction lower
          rwa [if_neg (silent lower listed), Nat.add_zero] at bound
        have decided : (decide ((tree.node id).callee? = some action) = true) ↔
            (tree.node id).callee? = some action := decide_eq_true_iff
        simp only [decided]
        omega

/-- In a proper tree an action without a result is called at most as often as it is stated. -/
theorem IsProper.count_calledActions_le (proper : tree.IsProper) (stated : tree.StatesOnly action) :
    tree.calledActions.count action ≤ (tree.statedCalls action).length := by
  have bound := countP_walkFrom_le stated (fun holder child held called => by
    rw [callee?_of_not_isExpression (proper.children held)] at called
    cases called) (tree.size + 1) root
  have start : (tree.node root).callee? ≠ some action := by
    have owns := proper.placed.rooted
    intro called
    cases here : tree.node root with
    | action => rw [here] at owns; cases owns
    | _ => rw [here] at called; cases called
  rw [if_neg start, Nat.add_zero] at bound
  rw [calledActions, statedCalls, List.count, List.countP_filterMap, ← List.countP_eq_length_filter]
  refine le_trans (List.countP_mono_left fun id _ called => ?_) bound
  cases here : (tree.node id).callee? with
  | none => rw [here] at called; cases called
  | some other =>
      rw [here] at called
      simpa using called

end Counts
end ScriptTree

namespace RecoveryInput

open ScriptTree

/-- The actions that the live instructions of a subroutine call, in order. -/
def liveActions (input : RecoveryInput) (sub : Nat) : List Nat :=
  ((input.program.body sub).filter fun place =>
    input.IsLive place ∧ input.program.opcode place = .action).filterMap fun place =>
      (input.program.instruction place).actionOperand?.map (·.1)

/-- A call of an action is one that a live instruction of a subroutine makes, with the name that the
catalog has for the action and with at most the arguments of the instruction. -/
def Makes (input : RecoveryInput) (sub : Nat) : Node → Prop
  | .action action name arguments => ∃ place ∈ input.program.body sub, input.IsLive place ∧
      input.program.opcode place = .action ∧ name = Recover.actionName input.catalog action ∧
        ∃ argumentCount, (input.program.instruction place).actionOperand? = some (action, argumentCount) ∧
          arguments.length ≤ argumentCount
  | _ => True

/-- The words of a recovery, as far as calls of actions go. -/
def callWords (input : RecoveryInput) (sub : Nat) : Vocabulary where
  allows := input.Makes sub
  plain := trivial
  reference := fun _ => trivial
  member := fun _ _ => trivial
  unknownOperand := trivial
  unresolvedParam := fun _ => trivial
  unresolvedJump := trivial

variable {input : RecoveryInput} {sub action : Nat} {tree shown : ScriptTree}

theorem length_actionParams_le (catalog : ActionCatalog) (id argumentCount : Nat) :
    (Recover.actionParams catalog id argumentCount).length ≤ argumentCount := by
  unfold Recover.actionParams ActionCatalog.argumentTypes?
  cases catalog.find? id with
  | none => simp
  | some signature => exact List.length_take_le _ _

theorem speaks_callWords (input : RecoveryInput) (sub : Nat) :
    input.Speaks (input.program.body sub) (input.callWords sub) where
  literal := fun _ _ _ _ _ => trivial
  action := by
    intro place listed live calls id argumentCount operand
    refine ⟨place, listed, live, calls, rfl, argumentCount, operand, ?_⟩
    rw [List.length_replicate]
    exact length_actionParams_le input.catalog id argumentCount
  call := fun _ => trivial

theorem makes_of_isNamed (named : shown.IsNamed (input.callWords sub)) (id : NodeId) :
    input.Makes sub (shown.node id) := by
  obtain ⟨whole, kept, made, same⟩ := named.label id
  cases here : shown.node id with
  | action action name arguments =>
      rw [here] at same
      cases whole with
      | action other label others =>
          obtain ⟨rfl, rfl, length⟩ := Node.action.inj same
          obtain ⟨place, listed, live, calls, name, argumentCount, operand, bound⟩ := made
          have shorter : arguments.length ≤ others.length := by
            have lengths := congrArg List.length length
            rw [List.length_replicate, List.length_take] at lengths
            omega
          exact ⟨place, listed, live, calls, name, argumentCount, operand, shorter.trans bound⟩
      | _ => cases same
  | _ => trivial

theorem calledActions_subset (makes : ∀ id, input.Makes sub (shown.node id)) :
    shown.calledActions ⊆ input.liveActions sub := by
  intro action called
  obtain ⟨id, -, callee⟩ := List.mem_filterMap.mp called
  have made := makes id
  cases here : shown.node id with
  | action other name arguments =>
      rw [here] at made callee
      obtain rfl := Option.some.inj callee
      obtain ⟨place, listed, live, calls, -, argumentCount, operand, -⟩ := made
      refine List.mem_filterMap.mpr ⟨place, List.mem_filter.mpr ⟨listed, ?_⟩, ?_⟩
      · exact decide_eq_true ⟨live, calls⟩
      · rw [operand]
        rfl
  | _ =>
      rw [here] at callee
      cases callee

theorem count_liveActions (input : RecoveryInput) (sub action : Nat) :
    (input.liveActions sub).count action =
      (input.program.body sub).countP fun place => input.CallsLive action place := by
  rw [liveActions, List.count, List.countP_filterMap, List.countP_filter]
  refine List.countP_congr fun place _ => ?_
  rw [decide_eq_true_iff, CallsLive]
  cases (input.program.instruction place).actionOperand? <;> simp [and_assoc, and_comm]

/-- Where no deferred argument begins, a function states each call of an action without a result once. -/
theorem recover_states_once (function : input.layout.globals ≠ some sub)
    (plain : ∀ place ∈ input.program.body sub, (input.program.opcode place).isStateSave = false)
    (command : input.catalog.IsCommand action) (recovered : input.recover sub = .ok tree) :
    tree.IsProper ∧ tree.StatesOnly action ∧
      (tree.statedCalls action).length = (input.liveActions sub).count action := by
  obtain ⟨last, ran, rfl⟩ := exists_of_recover recovered
  obtain ⟨sound, rooted, count⟩ := run_commands (if_neg (Ne.symm function)) plain command ran
  have resembles := Resembles.of_finishes (finishes_finish input last.tree)
  have proper := resembles.isProper (rooted.forest.isProper sound.tree)
  refine ⟨proper, (sound.tree.statesOnly command).finish input, ?_⟩
  rw [proper.length_statedCalls, resembles.callCount, count, count_liveActions]
  intro id called
  rw [resembles.calls] at called
  rw [Hangs, resembles.holds]
  exact rooted.placed called

/-- Every call of an action in a recovered tree, cleaned or not, is one that a live instruction of the
subroutine makes, so no more actions are called than there are such instructions.  In a function without
deferred arguments a walk meets no more calls of an action without a result than live instructions call
it. -/
theorem recover_calls_live (recovered : input.recover sub = .ok tree)
    (either : shown = tree ∨ shown = tree.cleanup.1) :
    (∀ id, input.Makes sub (shown.node id)) ∧
      shown.calledActions.dedup.length ≤ (input.liveActions sub).length ∧
        (input.layout.globals ≠ some sub →
          (∀ place ∈ input.program.body sub, (input.program.opcode place).isStateSave = false) →
            ∀ action, input.catalog.IsCommand action →
              shown.calledActions.count action ≤ (input.liveActions sub).count action) := by
  obtain ⟨named, -⟩ := recover_isNamed (input.speaks_callWords sub) recovered
  have makes : ∀ id, input.Makes sub (shown.node id) := by
    rcases either with rfl | rfl
    · exact makes_of_isNamed named
    · exact makes_of_isNamed ((reshapes_cleanup tree).isNamed named)
  refine ⟨makes, ?_, fun function plain action command => ?_⟩
  · have listed : shown.calledActions.dedup ⊆ input.liveActions sub :=
      fun _ called => calledActions_subset makes (List.mem_dedup.mp called)
    exact (List.subperm_of_subset (List.nodup_dedup _) listed).length_le
  · obtain ⟨proper, stated, length⟩ := recover_states_once function plain command recovered
    rcases either with rfl | rfl
    · exact length ▸ proper.count_calledActions_le stated
    · have keeps := @cleanup_keepsCalls _ action proper
      rw [← length, ← (keeps.perm proper).length_eq]
      exact keeps.proper.count_calledActions_le (statesOnly_cleanup stated)

/-- A number is drawn, a copy of it is printed, and the number is popped. -/
def drawing : RecoveryInput :=
  ofLiveCode [.constant (.int 2), ⟨.action, .void, .action 8 1⟩, ⟨.copyTop, .void, .stack (-4) 4⟩,
    ⟨.action, .void, .action 4 1⟩, ⟨.moveStack, .void, .offset (-4)⟩, .simple .ret .void] (by simp)
    [(8, .plain "Random" .int [.int]), (4, .plain "PrintInteger" .void [.int])]

/-- The tree calls two actions, as the two live calls do, and the one without a result once. -/
theorem recover_calls_live_drawing : ∃ tree, drawing.recover 0 = .ok tree ∧
    tree.cleanup.1.calledActions.dedup.length ≤ 2 ∧ tree.cleanup.1.calledActions.count 4 ≤ 1 := by
  have recovers : (drawing.recover 0).toOption.isSome := by decide +kernel
  cases recovered : drawing.recover 0 with
  | error fault => simp [recovered, Except.toOption] at recovers
  | ok tree =>
      have live : drawing.liveActions 0 = [8, 4] := by decide +kernel
      have plain : ∀ place ∈ drawing.program.body 0,
          (drawing.program.opcode place).isStateSave = false := by decide +kernel
      obtain ⟨-, different, commands⟩ := recover_calls_live recovered (.inr rfl)
      have printed := commands (by decide) plain 4 (by decide)
      rw [live] at different printed
      exact ⟨tree, rfl, different, printed⟩

/-- The number is drawn once and the tree draws it twice: it is printed as a copy of the call, and the pop
of the original becomes a statement. -/
theorem drawing_calls_more : ∃ tree, drawing.recover 0 = .ok tree ∧
    (drawing.liveActions 0).length < tree.calledActions.length ∧
      (drawing.liveActions 0).length < tree.cleanup.1.calledActions.length := by
  have check : (drawing.recover 0).toOption.any (fun tree =>
      decide ((drawing.liveActions 0).length < tree.calledActions.length ∧
        (drawing.liveActions 0).length < tree.cleanup.1.calledActions.length)) := by decide +kernel
  cases recovered : drawing.recover 0 with
  | error fault => simp [recovered, Except.toOption] at check
  | ok tree =>
      simp only [recovered, Except.toOption, Option.any_some, decide_eq_true_eq] at check
      exact ⟨tree, rfl, check⟩

end RecoveryInput
end NwScript
