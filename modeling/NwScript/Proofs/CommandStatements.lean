import NwScript.Proofs.RecoveryRuns
import NwScript.Proofs.StatementForest

/-!
# Statements of commands

An action without a result becomes a statement at once.  Where no deferred argument begins, such a
statement stays below the body of the subroutine, and there are as many of them as such actions have
been played.
-/

namespace NwScript

/-- The action that a node calls, if it is such a call. -/
def Node.callee? : Node → Option Nat
  | .action called _ _ => some called
  | _ => none

/-- An action has no result. -/
def ActionCatalog.IsCommand (catalog : ActionCatalog) (action : Nat) : Prop :=
  ((catalog.returnType? action).getD .void).slots = 0

instance (catalog : ActionCatalog) (action : Nat) : Decidable (catalog.IsCommand action) :=
  inferInstanceAs (Decidable (_ = _))

section Callees

variable {node other : Node} {catalog : ActionCatalog} {action : Nat}

theorem Node.callee?_outline (node : Node) : node.outline.callee? = node.callee? := by
  cases node <;> rfl

theorem Node.callee?_congr (same : node.outline = other.outline) : node.callee? = other.callee? :=
  congr_outline callee?_outline same

theorem Node.isCommand_of_callee? (calls : node.callee? = some action)
    (command : catalog.IsCommand action) : node.isCommand catalog := by
  cases node with
  | action called =>
      obtain rfl := Option.some.inj calls
      exact decide_eq_true command
  | _ => cases calls

end Callees

namespace ScriptTree

/-- A node is a statement that calls an action. -/
def calls (tree : ScriptTree) (action : Nat) (id : NodeId) : Bool :=
  match tree.node id with
  | .statement value => (tree.node value).callee? = some action
  | _ => false

/-- How many statements of a tree, attached or not, call an action. -/
def callCount (tree : ScriptTree) (action : Nat) : Nat :=
  (List.range tree.size).countP (tree.calls action)

variable {catalog : ActionCatalog} {tree before after : ScriptTree} {action : Nat} {id : NodeId}

theorem calls_iff : tree.calls action id ↔ ∃ value,
    tree.node id = .statement value ∧ (tree.node value).callee? = some action := by
  unfold calls
  split
  · rename_i value here
    simp [here]
  · rename_i other
    exact ⟨fun none_called => absurd none_called Bool.false_ne_true,
      fun ⟨value, here, _⟩ => absurd here (other value)⟩

theorem calls_of_le (outside : tree.size ≤ id) : tree.calls action id = false := by
  rw [calls, node_of_le outside]

/-- Nodes that are there go on calling what they call. -/
theorem Extends.calls (extension : before.Extends after) (sound : before.IsSound catalog)
    (inside : id < before.size) : after.calls action id = before.calls action id := by
  have below : ∀ {value}, before.node id = .statement value →
      (after.node value).callee? = (before.node value).callee? := by
    intro value here
    have used : value ∈ (before.node id).operands := by simp [here, Node.operands]
    refine Node.callee?_congr (extension.outline value ?_)
    exact (sound.operands used).elim (fun plain => plain.inside) fun there => there.1
  rw [Bool.eq_iff_iff, calls_iff, calls_iff]
  constructor
  · rintro ⟨value, here, called⟩
    have former : before.node id = .statement value := by
      refine Node.outline_eq_statement ?_
      rw [← extension.outline id inside, here]
      rfl
    exact ⟨value, former, (below former).symm.trans called⟩
  · rintro ⟨value, here, called⟩
    exact ⟨value, extension.statement inside here, (below here).trans called⟩

/-- Where no new node calls an action, the count is the same. -/
theorem callCount_of_fresh (extension : before.Extends after) (sound : before.IsSound catalog)
    (fresh : ∀ id, before.size ≤ id → after.calls action id = false) :
    after.callCount action = before.callCount action := by
  obtain ⟨more, size⟩ := Nat.exists_eq_add_of_le extension.size
  have new : (List.range' before.size more).countP (after.calls action) = 0 :=
    List.countP_eq_zero.mpr fun id listed => by simp [fresh id (List.mem_range'_1.mp listed).1]
  have split : List.range after.size = List.range before.size ++ List.range' before.size more := by
    rw [size, List.range_eq_range', List.range_eq_range', ← List.range'_append_1, Nat.zero_add]
  rw [callCount, split, List.countP_append, new, Nat.add_zero, callCount]
  exact List.countP_congr fun id listed => by rw [extension.calls sound (List.mem_range.mp listed)]

/-- An added node calls a command only if it states one. -/
theorem calls_add_self (tree : ScriptTree) (node : Node) : (tree.add node).1.calls action tree.size ↔
    ∃ value, node = .statement value ∧ ((tree.add node).1.node value).callee? = some action := by
  rw [calls_iff, node_add_self]

/-- No edit adds a statement that calls a command. -/
theorem Edit.fresh (edit : Edit catalog before after) (command : catalog.IsCommand action)
    (outside : before.size ≤ id) : after.calls action id = false := by
  have others : after.size = before.size → after.calls action id = false :=
    fun same => calls_of_le (same.trans_le outside)
  cases edit with
  | @add node values plain bare =>
      rcases Nat.lt_or_eq_of_le outside with beyond | rfl
      · exact calls_of_le (by rw [size_add]; exact beyond)
      · rw [← Bool.not_eq_true, calls_add_self]
        rintro ⟨value, rfl, called⟩
        have sound := values value (List.mem_singleton_self value)
        rw [node_add_of_lt _ sound.inside] at called
        exact absurd (Node.isCommand_of_callee? called command) (by simp [sound.plain])
  | vars edit => exact others rfl
  | fill => exact others (size_modify _ _ _)
  | link => exact others (size_setParent _ _ _)
  | hold => exact others (Rearranges.append _ _ _).size
  | detach => exact others (Rearranges.detach _ _).size
  | replace => exact others (Rearranges.replace _ _ _).size
  | wrap => exact others ((Rearranges.move _ _ _).trans (.insert _ _ _ _)).size

theorem IsLight.calls (light : tree.IsLight id) : tree.calls action id = false := by
  rw [← Bool.not_eq_true, calls_iff]
  rintro ⟨value, here, called⟩
  rcases light with ⟨_, _, _, _, there⟩ | ⟨_, expression, _, _, _, there, _, steps⟩
  · cases here.symm.trans there
  · cases here.symm.trans there
    rw [steps] at called
    cases called

section Stating

variable (sound : tree.IsSound catalog) (id : Nat) (name : String) {arguments : List NodeId}
  (values : ∀ argument ∈ arguments, tree.IsValue catalog argument)

theorem callee?_stated : ((tree.stated id name arguments).node tree.size).callee? = some id := by
  rw [stated, node_add_of_lt _ (by simp), node_add_self]
  rfl

theorem Hangs.stated {other : NodeId} (hangs : tree.Hangs other) :
    (tree.stated id name arguments).Hangs other :=
  (hangs.add _).add _

/-- Of the two nodes that state a command, the second one calls it. -/
theorem calls_stated {other : NodeId} (inside : tree.size ≤ other) :
    (tree.stated id name arguments).calls action other ↔ other = tree.size + 1 ∧ id = action := by
  have callee := @callee?_stated tree id name arguments
  rw [calls_iff]
  constructor
  · rintro ⟨value, here, called⟩
    rcases Nat.lt_trichotomy other (tree.size + 1) with first | rfl | beyond
    · obtain rfl : other = tree.size := Nat.le_antisymm (Nat.le_of_lt_succ first) inside
      rw [here] at callee
      cases callee
    · rw [node_stated_self] at here
      cases here
      exact ⟨rfl, Option.some.inj (callee.symm.trans called)⟩
    · rw [node_of_le ((size_stated id name).trans_le beyond)] at here
      cases here
  · rintro ⟨rfl, rfl⟩
    exact ⟨tree.size, node_stated_self id name, callee⟩

include sound

include values in
theorem isForest_stated (forest : tree.IsForest) : (tree.stated id name arguments).IsForest := by
  have called := sound.add (.action id name arguments)
    (fun operand used => .inl (values operand used)) (fun _ held => absurd held List.not_mem_nil)
  refine IsForest.add (forest.add sound (fun operand used => ?_) rfl rfl) called
    (fun operand used => ?_) rfl rfl
  · exact ⟨(values operand used).inside, (values operand used).expression⟩
  · obtain rfl := List.mem_singleton.mp used
    exact ⟨by simp, by rw [node_add_self]; rfl⟩

theorem isUnplaced_stated : (tree.stated id name arguments).IsUnplaced (tree.size + 1) := by
  refine ⟨by simp, by rw [node_stated_self]; rfl, Nat.succ_ne_zero _, fun holder held => ?_⟩
  rw [stated, children_eq, node_add, Function.update_apply, node_add, Function.update_apply] at held
  split at held
  · exact absurd held List.not_mem_nil
  split at held
  · exact absurd held List.not_mem_nil
  · exact absurd (sound.children held).1 (Nat.not_lt.mpr (Nat.le_succ _))

theorem callCount_stated : (tree.stated id name arguments).callCount action =
    tree.callCount action + [id].count action := by
  have calls := @calls_stated tree action id name arguments
  have old : (List.range tree.size).countP ((tree.stated id name arguments).calls action) =
      tree.callCount action := List.countP_congr fun other listed => by
    rw [(Extends.stated id name).calls sound (List.mem_range.mp listed)]
  have first : (tree.stated id name arguments).calls action tree.size = false := by
    rw [← Bool.not_eq_true, calls (Nat.le_refl _)]
    simp
  have second : (tree.stated id name arguments).calls action (tree.size + 1) = (id == action) := by
    rw [Bool.eq_iff_iff, calls (Nat.le_succ _)]
    simp
  rw [callCount, size_stated, List.range_succ, List.range_succ, List.countP_append,
    List.countP_append, old, List.countP_singleton, List.countP_singleton, first, second]
  simp [List.count_singleton]

end Stating

end ScriptTree

section Counting

variable {terms : Terms} {before after : Recovery} {action id : Nat} {ids : List Nat}

open ScriptTree

theorem Move.fresh (move : Move terms before after) (command : terms.catalog.IsCommand action)
    {id : NodeId} (outside : before.tree.size ≤ id) : after.tree.calls action id = false := by
  cases move with
  | edit edit => exact edit.fresh command outside
  | emit => exact calls_of_le ((Rearranges.append _ _ _).size.trans_le outside)
  | note tree => exact calls_of_le (tree ▸ outside)
  | @defer body height empty allowed =>
      rcases Nat.lt_or_eq_of_le outside with beyond | rfl
      · exact calls_of_le (by rw [size_add]; exact beyond)
      · rw [← Bool.not_eq_true]
        exact fun called => by
          obtain ⟨_, same, _⟩ := (calls_add_self _ _).mp called
          cases same
  | _ => exact calls_of_le outside

/-- An action without a result becomes one statement more that calls it. -/
theorem Commands.callCount (commands : Commands terms.catalog id before after)
    (sound : before.IsSound terms.catalog) :
    after.tree.callCount action = before.tree.callCount action + [id].count action := by
  obtain ⟨name, arguments, values, rfl⟩ := commands.added
  have placed := Rearranges.append (before.tree.stated id name arguments) before.current
    (before.tree.size + 1)
  rw [callCount_of_fresh placed.isExtension (isSound_stated id name sound.tree values)
    fun _ outside => calls_of_le (placed.size.trans_le outside), callCount_stated sound.tree]

/-- Each command that is played becomes a statement. -/
theorem Plays.callCount (plays : Plays terms before ids after)
    (sound : before.IsSound terms.catalog) (command : terms.catalog.IsCommand action) :
    after.tree.callCount action = before.tree.callCount action + ids.count action := by
  induction plays with
  | refl => simp
  | move former move induction =>
      rw [← induction]
      exact callCount_of_fresh move.isExtension (former.isSound sound).tree
        fun _ => move.fresh command
  | command former commands induction =>
      rw [commands.callCount (former.isSound sound), induction, List.count_append, Nat.add_assoc]

end Counting

namespace Recovery

open ScriptTree

/-- Statements have one place each, and the open nodes and the statements that call an action hang
below the body of the subroutine. -/
structure IsRooted (action : Nat) (recovery : Recovery) : Prop where
  /-- Every statement has at most one place. -/
  forest : recovery.tree.IsForest
  /-- Open nodes hang. -/
  scopes : ∀ scope ∈ recovery.scopes, recovery.tree.Hangs scope.node
  /-- Statements that call the action hang. -/
  placed : ∀ {id}, recovery.tree.calls action id → recovery.tree.Hangs id

variable {terms : Terms} {before after : Recovery} {action id : Nat} {ids : List Nat}

theorem IsRooted.current (rooted : before.IsRooted action) : before.tree.Hangs before.current := by
  unfold Recovery.current
  split
  · rename_i scope _ open_scopes
    exact rooted.scopes scope (open_scopes ▸ List.mem_cons_self)
  · exact .refl

/-- A larger forest in which everything that is not light goes on hanging serves as well. -/
theorem IsRooted.extend (rooted : before.IsRooted action) (sound : before.IsSound terms.catalog)
    {tree : ScriptTree} (extension : before.tree.Extends tree) (forest : tree.IsForest)
    (hangs : ∀ {id}, before.tree.Hangs id → before.tree.IsLight id ∨ tree.Hangs id)
    (placed : ∀ id, before.tree.size ≤ id → tree.calls action id → tree.Hangs id) :
    { before with tree }.IsRooted action where
  forest := forest
  scopes := fun scope listed => (hangs (rooted.scopes scope listed)).resolve_left fun light => by
    have owns := sound.scopes scope listed
    rw [light.body?] at owns
    cases owns
  placed := by
    intro id called
    rcases Nat.lt_or_ge id before.tree.size with inside | outside
    · have former : before.tree.calls action id := extension.calls sound.tree inside ▸ called
      refine (hangs (rooted.placed former)).resolve_left fun light => ?_
      rw [light.calls] at former
      cases former
    · exact placed id outside called

/-- A statement that stands nowhere is attached to the innermost open node. -/
theorem IsRooted.emit (rooted : before.IsRooted action) (sound : before.IsSound terms.catalog)
    {statement : NodeId} (unplaced : before.tree.IsUnplaced statement) :
    { before with tree := before.tree.append before.current statement }.IsRooted action := by
  have placed := Rearranges.append before.tree before.current statement
  refine rooted.extend sound placed.isExtension ?_ (fun hangs => .inr ?_) fun id outside called => ?_
  · exact rooted.forest.append sound.tree sound.current unplaced
      (rooted.forest.apart_of_hangs unplaced.free unplaced.deep rooted.current)
  · exact hangs.mono fun held => (IsForest.holds_append sound.current).mpr (.inl held)
  · rw [calls_of_le (placed.size.trans_le outside)] at called
    cases called

end Recovery

section Rooting

open ScriptTree

variable {terms : Terms} {before after : Recovery} {action id : Nat} {ids : List Nat}

theorem Move.isRooted (move : Move terms before after) (sound : before.IsSound terms.catalog)
    (plain : ¬terms.defers) (command : terms.catalog.IsCommand action)
    (rooted : before.IsRooted action) : after.IsRooted action := by
  cases move with
  | edit edit =>
      refine rooted.extend sound edit.isExtension (edit.isForest sound.tree rooted.forest)
        (edit.hangs sound.tree rooted.forest) fun id outside called => ?_
      rw [edit.fresh command outside] at called
      cases called
  | emit unplaced different => exact rooted.emit sound unplaced
  | note tree scopes =>
      exact ⟨tree ▸ rooted.forest, fun scope listed => tree ▸ rooted.scopes scope (scopes ▸ listed),
        fun called => tree ▸ rooted.placed (tree ▸ called)⟩
  | enter held owns =>
      exact { rooted with
        scopes := List.forall_mem_cons.mpr ⟨rooted.current.tail held, rooted.scopes⟩ }
  | leave scopes =>
      exact { rooted with
        scopes := fun scope listed => rooted.scopes scope (scopes ▸ List.mem_cons_of_mem _ listed) }
  | defer height empty allowed => exact absurd allowed plain
  | finish => exact { rooted with }

theorem Commands.isRooted (commands : Commands terms.catalog id before after)
    (sound : before.IsSound terms.catalog) (rooted : before.IsRooted action) :
    after.IsRooted action := by
  have extension := commands.isExtension
  obtain ⟨name, arguments, values, rfl⟩ := commands.added
  have stated := isSound_stated id name sound.tree values
  have forest := isForest_stated sound.tree id name values rooted.forest
  have unplaced := @isUnplaced_stated _ _ sound.tree id name arguments
  have owns : ((before.tree.stated id name arguments).node before.current).body?.isSome := by
    rw [(Extends.stated id name).owns (lt_of_body? sound.current)]
    exact sound.current
  have placed := Rearranges.append (before.tree.stated id name arguments) before.current
    (before.tree.size + 1)
  have holds := @IsForest.holds_append _ _ (before.tree.size + 1) owns
  have hangs : ∀ {other}, before.tree.Hangs other → ((before.tree.stated id name arguments).append
      before.current (before.tree.size + 1)).Hangs other :=
    fun former => (former.stated id name).mono fun held => holds.mpr (.inl held)
  refine rooted.extend sound extension ?_ (fun former => .inr (hangs former)) fun other outside calls => ?_
  · exact forest.append stated owns unplaced
      (forest.apart_of_hangs unplaced.free unplaced.deep (rooted.current.stated id name))
  · by_cases inside : other < (before.tree.stated id name arguments).size
    · rw [placed.isExtension.calls stated inside, calls_stated id name outside] at calls
      exact (hangs rooted.current).tail (holds.mpr (.inr ⟨rfl, calls.1⟩))
    · rw [calls_of_le (placed.size.trans_le (Nat.not_lt.mp inside))] at calls
      cases calls

/-- Without deferred arguments everything of account hangs throughout. -/
theorem Plays.isRooted (plays : Plays terms before ids after) (sound : before.IsSound terms.catalog)
    (plain : ¬terms.defers) (command : terms.catalog.IsCommand action)
    (rooted : before.IsRooted action) : after.IsRooted action := by
  induction plays with
  | refl => exact rooted
  | move former move induction =>
      exact move.isRooted (former.isSound sound) plain command induction
  | command former commands induction => exact commands.isRooted (former.isSound sound) induction

end Rooting

namespace RecoveryInput

open ScriptTree

variable {input : RecoveryInput} {sub action : Nat}

/-- An instruction is live and calls an action. -/
def CallsLive (input : RecoveryInput) (action command : Nat) : Prop :=
  input.IsLive command ∧ input.program.opcode command = .action ∧
    (input.program.instruction command).actionOperand?.map (·.1) = some action

instance (action command : Nat) : Decidable (input.CallsLive action command) :=
  inferInstanceAs (Decidable (_ ∧ _ ∧ _))

theorem command?_eq_some_iff (command : input.catalog.IsCommand action) {place : Nat} :
    input.command? place = some action ↔ input.program.opcode place = .action ∧
      (input.program.instruction place).actionOperand?.map (·.1) = some action := by
  rw [command?]
  split
  · rename_i acts
    rw [Recover.command?, Option.filter_eq_some_iff, decide_eq_true_iff]
    exact ⟨fun both => ⟨acts, both.1⟩, fun both => ⟨both.2, command⟩⟩
  · rename_i other
    constructor
    · intro none_called
      cases none_called
    · intro both
      exact absurd both.1 other

/-- Live instructions are counted as often as they call an action without a result. -/
theorem count_liveCommands (command : input.catalog.IsCommand action) (commands : List Nat) :
    (input.liveCommands commands).count action =
      commands.countP fun place => input.CallsLive action place := by
  rw [liveCommands, List.count, List.countP_filterMap, List.countP_filter]
  refine List.countP_congr fun place _ => ?_
  have same : input.CallsLive action place ↔ input.command? place = some action ∧ input.IsLive place := by
    rw [command?_eq_some_iff command]
    exact and_comm
  rw [decide_eq_true_iff, same]
  cases input.command? place <;> simp

/-- Before its first instruction a function has its empty body only. -/
theorem emptyTree_calls (input : RecoveryInput) (sub action id : Nat) :
    ((input.emptyTree sub).node id).isClosure = false ∧
      (input.emptyTree sub).calls action id = false := by
  cases id with
  | zero => exact ⟨rfl, rfl⟩
  | succ id =>
      have outside : (input.emptyTree sub).size ≤ id + 1 := Nat.succ_le_succ (Nat.zero_le id)
      exact ⟨by rw [node_of_le outside]; rfl, calls_of_le outside⟩

theorem emptyTree_isForest (input : RecoveryInput) (sub : Nat) : (input.emptyTree sub).IsForest where
  linked := fun {holder _} held => by simp [(input.emptyTree_node sub holder).2] at held
  once := fun holder => by simp [(input.emptyTree_node sub holder).2]
  acyclic := fun id circle => by
    obtain ⟨next, held, _⟩ := Relation.TransGen.head'_iff.mp circle
    simp [Holds, (input.emptyTree_node sub id).2] at held
  top := fun holder held => by simp [(input.emptyTree_node sub holder).2] at held
  ordered := fun {id _} _ used => by simp [(input.emptyTree_node sub id).1] at used
  plain := fun id => (input.emptyTree_calls sub 0 id).1

theorem start_isRooted (input : RecoveryInput) (sub action : Nat) :
    (input.start sub).IsRooted action ∧ (input.start sub).tree.callCount action = 0 := by
  obtain ⟨scopes, vars, signature, _, same⟩ := input.start_tree sub
  obtain ⟨linked, once, acyclic, top, ordered, plain⟩ := input.emptyTree_isForest sub
  refine ⟨⟨?_, fun _ listed => ?_, fun {id} called => ?_⟩, ?_⟩
  · rw [same]
    exact ⟨linked, once, acyclic, top, ordered, plain⟩
  · rw [scopes] at listed
    exact absurd listed List.not_mem_nil
  · rw [same] at called
    exact absurd called (Bool.eq_false_iff.mp (input.emptyTree_calls sub action id).2)
  · rw [same]
    exact List.countP_eq_zero.mpr fun id _ =>
      Bool.eq_false_iff.mp (input.emptyTree_calls sub action id).2

/-- What the recovery of a function leaves where no deferred argument begins: a forest in which the
statements that call an action hang, as many as there are live instructions that call it. -/
theorem run_commands (function : input.kind sub = .function)
    (plain : ∀ command ∈ input.program.body sub,
      (input.program.opcode command).isStateSave = false)
    (command : input.catalog.IsCommand action) {last : Recovery}
    (recovered : input.run sub = .ok last) :
    last.IsSound input.catalog ∧ last.IsRooted action ∧ last.tree.callCount action =
      (input.program.body sub).countP fun place => input.CallsLive action place := by
  have plays := run_plays function recovered
  have sound := input.start_isSound sub
  obtain ⟨rooted, empty⟩ := input.start_isRooted sub action
  refine ⟨plays.isSound sound, plays.isRooted sound ?_ command rooted, ?_⟩
  · rintro ⟨place, listed, saves⟩
    rw [plain place listed] at saves
    cases saves
  · rw [plays.callCount sound command, empty, Nat.zero_add, count_liveCommands command]

end RecoveryInput
end NwScript
