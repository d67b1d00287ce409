import NwScript.Proofs.ScopeOrder
import NwScript.Proofs.StatementForest

/-!
# Cases stay where they are

A switch holds its cases before all other statements.  Of what is in a body only declarations and changes
by one are ever taken out or replaced, a block of locals takes in what stands behind a declaration, and
whatever else is attached comes behind the rest.  So no move of a recovery touches the cases of a switch.
-/

namespace NwScript

namespace Node

variable {node : Node}

theorem outline_eq_literal {value : Constant} (same : node.outline = .literal value) :
    node = .literal value := by
  cases node <;> first | exact same | cases same

/-- A case keeps its label and where it lies. -/
theorem outline_eq_case {label : Option NodeId} {body : Body}
    (same : node.outline = (Node.case label body).outline) :
    ∃ other, node = .case label other ∧ other.start = body.start ∧ other.limit = body.limit := by
  cases node with
  | case other former =>
      obtain ⟨rfl, bodies⟩ := Node.case.inj same
      have starts : (former.holding []).start = (body.holding []).start := by rw [bodies]
      have limits : (former.holding []).limit = (body.holding []).limit := by rw [bodies]
      exact ⟨former, rfl, starts, limits⟩
  | _ => cases same

end Node

namespace ScriptTree

variable {tree before after : ScriptTree} {switch parent child : NodeId}
  {cases left right new : List NodeId}

/-- A node holds some statements before all others, and no other node holds these. -/
structure HoldsFirst (tree : ScriptTree) (switch : NodeId) (cases : List NodeId) : Prop where
  /-- They come before the other statements. -/
  first : ∃ rest, tree.children switch = cases ++ rest ∧ ∀ id ∈ cases, id ∉ rest
  /-- They stand nowhere else. -/
  only : ∀ id ∈ cases, ∀ holder, id ∈ tree.children holder → holder = switch

section Statements

/-- A node gets other statements. -/
theorem children_of_node {statements : List NodeId} (owns : (before.node parent).body?.isSome)
    (nodes : after.node =
      Function.update before.node parent ((before.node parent).holding statements)) :
    after.children = Function.update before.children parent statements := by
  funext id
  rw [children_eq, nodes, Function.update_apply, Function.update_apply]
  split
  · rw [Node.statements_holding owns]
  · rfl

/-- A statement is in the body that it links to, or it has no slot. -/
theorem slot_cases (tree : ScriptTree) (child : NodeId) :
    (∃ parent left right, tree.parent? child = some parent ∧
      tree.children parent = left ++ child :: right ∧ child ∉ left) ∨
    ∀ holder, tree.parent? child = some holder → child ∉ tree.children holder := by
  by_cases held : ∃ holder, tree.parent? child = some holder ∧ child ∈ tree.children holder
  · obtain ⟨parent, linked, here⟩ := held
    obtain ⟨left, right, split, first⟩ := List.eq_append_cons_of_mem here
    exact .inl ⟨parent, left, right, linked, split, first⟩
  · exact .inr fun holder linked here => held ⟨holder, linked, here⟩

theorem children_insert (owns : (tree.node parent).body?.isSome) (index : Nat) (child : NodeId) :
    (tree.insert parent index child).children = Function.update tree.children parent
      ((tree.children parent).take index ++ child :: (tree.children parent).drop index) := by
  refine children_of_node owns ?_
  rw [insert, if_pos owns, ← mapBody_children (fun children =>
    children.take index ++ child :: children.drop index) rfl]
  exact node_modifyBody tree parent _

end Statements

namespace HoldsFirst

theorem of_children (holds : before.HoldsFirst switch cases)
    (same : after.children = before.children) : after.HoldsFirst switch cases where
  first := same ▸ holds.first
  only := same ▸ holds.only

theorem mem (holds : tree.HoldsFirst switch cases) {id : NodeId} (listed : id ∈ cases) :
    id ∈ tree.children switch := by
  obtain ⟨rest, split, _⟩ := holds.first
  rw [split]
  exact List.mem_append_left rest listed

/-- Behind them other statements may give way to yet others. -/
theorem splice (holds : before.HoldsFirst switch cases) {old : List NodeId}
    (split : before.children parent = left ++ (old ++ right))
    (changed : after.children = Function.update before.children parent (left ++ (new ++ right)))
    (behind : parent = switch → cases.length ≤ left.length) (fresh : ∀ id ∈ new, id ∉ cases) :
    after.HoldsFirst switch cases := by
  have former : ∀ id ∈ cases, ∀ holder, id ∈ after.children holder → id ∈ before.children holder := by
    intro id listed holder held
    rw [changed, Function.update_apply] at held
    split at held
    · rename_i here
      rw [here, split]
      simp only [List.mem_append] at held ⊢
      exact held.imp_right fun later => .inr (later.resolve_left fun added => fresh id added listed)
    · exact held
  refine ⟨?_, fun id listed holder held => holds.only id listed holder (former id listed holder held)⟩
  obtain ⟨rest, whole, apart⟩ := holds.first
  rw [changed, Function.update_apply]
  split
  · rename_i here
    subst here
    obtain ⟨more, rfl⟩ : cases <+: left :=
      List.prefix_of_prefix_length_le ⟨rest, whole.symm⟩ ⟨old ++ right, split.symm⟩ (behind rfl)
    have rest_eq : rest = more ++ (old ++ right) := by
      rw [whole, List.append_assoc] at split
      exact List.append_cancel_left split
    refine ⟨more ++ (new ++ right), List.append_assoc _ _ _, fun id listed later => ?_⟩
    refine apart id listed ?_
    rw [rest_eq]
    simp only [List.mem_append] at later ⊢
    exact later.imp_right fun later => .inr (later.resolve_left fun added => fresh id added listed)
  · exact ⟨rest, whole, apart⟩

/-- Everything else stands behind them. -/
theorem behind (holds : tree.HoldsFirst switch cases)
    (split : tree.children parent = left ++ child :: right) (absent : child ∉ cases)
    (here : parent = switch) : cases.length ≤ left.length := by
  obtain ⟨rest, whole, _⟩ := holds.first
  by_contra less
  have inside := Nat.not_le.mp less
  have found : (cases ++ rest)[left.length]? = some child := by
    rw [← whole, ← here, split, List.getElem?_append_right (Nat.le_refl _), Nat.sub_self]
    rfl
  rw [List.getElem?_append_left inside] at found
  exact absent (List.mem_of_getElem? found)

theorem length_le (holds : tree.HoldsFirst switch cases) :
    cases.length ≤ (tree.children switch).length := by
  obtain ⟨rest, whole, _⟩ := holds.first
  rw [whole, List.length_append]
  exact Nat.le_add_right _ _

theorem append (holds : tree.HoldsFirst switch cases) (absent : child ∉ cases) :
    (tree.append parent child).HoldsFirst switch cases := by
  by_cases owns : (tree.node parent).body?.isSome
  · have changed : (tree.append parent child).children = Function.update tree.children parent
        (tree.children parent ++ ([child] ++ [])) := children_of_node owns (node_append_eq owns child)
    have split : tree.children parent = tree.children parent ++ ([] ++ []) := by simp
    exact holds.splice split changed (fun here => here ▸ holds.length_le) (by simpa using absent)
  · rwa [ScriptTree.append, if_neg owns]

theorem insert {index : Nat} (holds : tree.HoldsFirst switch cases) (absent : child ∉ cases)
    (behind : parent = switch → cases.length ≤ index) :
    (tree.insert parent index child).HoldsFirst switch cases := by
  by_cases owns : (tree.node parent).body?.isSome
  · have changed : (tree.insert parent index child).children = Function.update tree.children parent
        ((tree.children parent).take index ++ ([child] ++ (tree.children parent).drop index)) :=
      children_insert owns index child
    have split : tree.children parent =
        (tree.children parent).take index ++ ([] ++ (tree.children parent).drop index) := by simp
    refine holds.splice split changed (fun here => ?_) (by simpa using absent)
    rw [List.length_take]
    exact Nat.le_min.mpr ⟨behind here, here ▸ holds.length_le⟩
  · rwa [ScriptTree.insert, if_neg owns]

theorem detach (holds : tree.HoldsFirst switch cases) (absent : child ∉ cases) :
    (tree.detach child).1.HoldsFirst switch cases := by
  rcases tree.slot_cases child with ⟨parent, left, right, linked, split, first⟩ | free
  · have owns := Node.owns_of_mem_statements (show child ∈ tree.children parent by simp [split])
    have changed : (tree.detach child).1.children = Function.update tree.children parent
        (left ++ ([] ++ right)) := children_of_node owns (node_detach linked split first)
    have whole : tree.children parent = left ++ ([child] ++ right) := split
    exact holds.splice whole changed (holds.behind split absent)
      fun _ listed => absurd listed List.not_mem_nil
  · rwa [detach_eq_self free]

theorem replace {other : NodeId} (holds : tree.HoldsFirst switch cases) (absent : child ∉ cases)
    (fresh : other ∉ cases) : (tree.replace child other).1.HoldsFirst switch cases := by
  rcases tree.slot_cases child with ⟨parent, left, right, linked, split, first⟩ | free
  · have owns := Node.owns_of_mem_statements (show child ∈ tree.children parent by simp [split])
    have changed : (tree.replace child other).1.children = Function.update tree.children parent
        (left ++ ([other] ++ right)) := children_of_node owns (node_replace linked split first other)
    have whole : tree.children parent = left ++ ([child] ++ right) := split
    exact holds.splice whole changed (holds.behind split absent) (by simpa using fresh)
  · rwa [ScriptTree.replace, slot?_eq_none free]

theorem add {node : Node} (holds : tree.HoldsFirst switch cases) (inside : switch < tree.size)
    (fresh : ∀ id ∈ node.statements, id ∉ cases) : (tree.add node).1.HoldsFirst switch cases := by
  have bare : tree.children tree.size = [] ++ ([] ++ []) := children_of_le (Nat.le_refl _)
  have changed : (tree.add node).1.children = Function.update tree.children tree.size
      ([] ++ (node.statements ++ [])) := by
    funext id
    rw [children_eq, node_add, Function.update_apply, Function.update_apply, List.append_nil,
      List.nil_append]
    split <;> rfl
  exact holds.splice bare changed (fun same => absurd same (Nat.ne_of_gt inside)) fresh

/-- Other statements may move away, one after another. -/
theorem foldl_move {moved : List NodeId} (holds : tree.HoldsFirst switch cases) (host : NodeId)
    (absent : ∀ child ∈ moved, child ∉ cases) :
    (moved.foldl (move host) tree).HoldsFirst switch cases := by
  induction moved generalizing tree with
  | nil => exact holds
  | cons child moved induction =>
      obtain ⟨here, others⟩ := List.forall_mem_cons.mp absent
      exact induction ((holds.detach here).append here) others

end HoldsFirst

section Edits

variable {catalog : ActionCatalog}

theorem lt_of_isSwitch (isSwitch : (tree.node switch).isSwitch) : switch < tree.size := by
  by_contra outside
  rw [node_of_le (Nat.not_lt.mp outside)] at isSwitch
  cases isSwitch

theorem HoldsFirst.not_mem_of_isUnplaced (holds : tree.HoldsFirst switch cases)
    (unplaced : tree.IsUnplaced child) : child ∉ cases :=
  fun listed => unplaced.free switch (holds.mem listed)

/-- No edit touches the cases of a switch. -/
theorem Edit.holdsFirst (edit : Edit catalog before after) (isSwitch : (before.node switch).isSwitch)
    (isCase : ∀ id ∈ cases, ∃ label body, before.node id = .case label body)
    (holds : before.HoldsFirst switch cases) : after.HoldsFirst switch cases := by
  have heavy : ∀ {statement}, before.IsLight statement → statement ∉ cases := by
    intro statement light listed
    obtain ⟨label, body, here⟩ := isCase statement listed
    have bare := light.body?
    rw [here] at bare
    cases bare
  cases edit with
  | @add node values plain bare =>
      refine holds.add (lt_of_isSwitch isSwitch) fun id held listed => ?_
      rcases bare with ⟨empty, _⟩ | ⟨closure, original, rfl⟩
      · exact absurd (empty ▸ held) List.not_mem_nil
      · rw [holds.only id listed original held] at closure
        cases here : before.node switch with
        | switch =>
            rw [here] at closure
            cases closure
        | _ =>
            rw [here] at isSwitch
            cases isSwitch
  | vars edit => exact holds.of_children rfl
  | fill outline statements operands =>
      exact holds.of_children (funext fun id => children_modify statements id)
  | link user value => exact holds.of_children rfl
  | hold unplaced bare owns above different => exact holds.append (holds.not_mem_of_isUnplaced unplaced)
  | detach light => exact holds.detach (heavy light)
  | replace declares unplaced bare =>
      exact holds.replace (heavy (.inl declares)) (holds.not_mem_of_isUnplaced unplaced)
  | @wrap holder block first inside unplaced bare owns above different declares =>
      obtain ⟨rest, whole, apart⟩ := holds.first
      have behind : holder = switch → cases.length ≤ first := by
        rintro rfl
        by_contra less
        have bound := Nat.not_le.mp less
        refine heavy (.inl (declares cases[first] ?_)) (List.getElem_mem bound)
        rw [whole, List.getElem?_append_left bound, List.getElem?_eq_getElem bound]
      have moved : ∀ child ∈ (before.children holder).drop first, child ∉ cases := by
        intro child later listed
        obtain rfl := holds.only child listed holder (List.mem_of_mem_drop later)
        rw [whole, List.drop_append, List.drop_eq_nil_of_le (behind rfl), List.nil_append] at later
        exact apart child listed (List.mem_of_mem_drop later)
      exact (holds.foldl_move block moved).insert (holds.not_mem_of_isUnplaced unplaced) behind

end Edits

section Cases

variable {id : NodeId} {range : CaseRange Constant} {ranges : List (CaseRange Constant)}

/-- A node as a case, with the literal that its label is. -/
def caseRange? (tree : ScriptTree) (id : NodeId) : Option (CaseRange Constant) :=
  match tree.node id with
  | .case none body => some ⟨none, body.start, body.limit⟩
  | .case (some label) body =>
      match tree.node label with
      | .literal value => some ⟨some value, body.start, body.limit⟩
      | _ => none
  | _ => none

theorem body?_of_caseRange? (reads : tree.caseRange? id = some range) :
    ∃ body, (tree.node id).body? = some body ∧ body.start = range.start ∧ body.limit = range.limit := by
  unfold caseRange? at reads
  split at reads
  · rename_i body here
    cases reads
    exact ⟨body, by rw [here]; rfl, rfl, rfl⟩
  · rename_i label body here
    split at reads
    · cases reads
      exact ⟨body, by rw [here]; rfl, rfl, rfl⟩
    · cases reads
  · cases reads

theorem exists_case_of_caseRange? (reads : tree.caseRange? id = some range) :
    ∃ label body, tree.node id = .case label body := by
  unfold caseRange? at reads
  split at reads
  · exact ⟨_, _, ‹_›⟩
  · exact ⟨_, _, ‹_›⟩
  · cases reads

/-- Cases are the same for good. -/
theorem Extends.caseRange? (extension : before.Extends after)
    (reads : before.caseRange? id = some range) : after.caseRange? id = some range := by
  obtain ⟨label, body, here⟩ := exists_case_of_caseRange? reads
  have outline := extension.outline id (lt_of_body? (by rw [here]; rfl))
  rw [here] at outline
  obtain ⟨other, there, start, limit⟩ := Node.outline_eq_case outline
  rw [ScriptTree.caseRange?, here] at reads
  rw [ScriptTree.caseRange?, there]
  cases label with
  | none =>
      dsimp only at reads ⊢
      rw [← reads, start, limit]
  | some label =>
      dsimp only at reads ⊢
      split at reads
      · rename_i value known
        have same := extension.outline label (lt_of_node known nofun)
        rw [known] at same
        rw [Node.outline_eq_literal same, ← reads, start, limit]
      · cases reads

theorem exists_caseRange? (reads : cases.map tree.caseRange? = ranges.map some) (listed : id ∈ cases) :
    ∃ range, tree.caseRange? id = some range := by
  have image := List.mem_map_of_mem (f := tree.caseRange?) listed
  rw [reads] at image
  obtain ⟨range, -, same⟩ := List.mem_map.mp image
  exact ⟨range, same.symm⟩

theorem Extends.map_caseRange? (extension : before.Extends after)
    (reads : cases.map before.caseRange? = ranges.map some) :
    cases.map after.caseRange? = ranges.map some := by
  rw [← reads]
  refine List.map_congr_left fun id listed => ?_
  obtain ⟨range, here⟩ := exists_caseRange? reads listed
  rw [here, extension.caseRange? here]

/-- A switch holds some cases before everything else, and nothing else holds these. -/
structure HoldsCases (tree : ScriptTree) (switch : NodeId) (ranges : List (CaseRange Constant)) :
    Prop where
  /-- It is a switch. -/
  isSwitch : (tree.node switch).isSwitch
  /-- Its first statements are the cases. -/
  cases : ∃ cases, tree.HoldsFirst switch cases ∧ cases.map tree.caseRange? = ranges.map some

theorem HoldsCases.extend (holds : before.HoldsCases switch ranges) (extension : before.Extends after)
    (kept : ∀ {cases}, (∀ id ∈ cases, ∃ label body, before.node id = .case label body) →
      before.HoldsFirst switch cases → after.HoldsFirst switch cases) :
    after.HoldsCases switch ranges := by
  have outline := extension.outline switch (lt_of_isSwitch holds.isSwitch)
  refine ⟨by rw [Node.congr_outline Node.isSwitch_outline outline]; exact holds.isSwitch, ?_⟩
  obtain ⟨cases, first, reads⟩ := holds.cases
  refine ⟨cases, kept (fun id listed => ?_) first, extension.map_caseRange? reads⟩
  obtain ⟨range, here⟩ := exists_caseRange? reads listed
  exact exists_case_of_caseRange? here

/-- The statement with the number of a case is that case. -/
theorem HoldsCases.getElem? (holds : tree.HoldsCases switch ranges) {index : Nat}
    (found : ranges[index]? = some range) :
    ∃ id, (tree.children switch)[index]? = some id ∧ tree.caseRange? id = some range := by
  obtain ⟨cases, first, reads⟩ := holds.cases
  obtain ⟨rest, whole, _⟩ := first.first
  have there : (cases.map tree.caseRange?)[index]? = some (some range) := by
    rw [reads, List.getElem?_map, found]
    rfl
  rw [List.getElem?_map] at there
  obtain ⟨id, listed, same⟩ := Option.map_eq_some_iff.mp there
  refine ⟨id, ?_, same⟩
  rw [whole, List.getElem?_append_left (List.getElem?_eq_some_iff.mp listed).1, listed]

end Cases

end ScriptTree

section Playing

open ScriptTree

variable {terms : Terms} {before after : Recovery} {ids : List Nat} {id : Nat} {switch : NodeId}
  {ranges : List (CaseRange Constant)}

/-- No move of a recovery touches the cases of a switch. -/
theorem Move.holdsCases (move : Move terms before after)
    (holds : before.tree.HoldsCases switch ranges) : after.tree.HoldsCases switch ranges := by
  refine holds.extend move.isExtension fun isCase first => ?_
  cases move with
  | edit edit => exact edit.holdsFirst holds.isSwitch isCase first
  | emit unplaced different => exact first.append (first.not_mem_of_isUnplaced unplaced)
  | note tree => rwa [tree]
  | @defer body height empty allowed =>
      refine first.add (lt_of_isSwitch holds.isSwitch) fun id held _ => ?_
      rw [Node.statements, Node.body?, Option.map_some, Option.getD_some, empty] at held
      cases held
  | enter | leave | finish => exact first

theorem Commands.holdsCases (commands : Commands terms.catalog id before after)
    (holds : before.tree.HoldsCases switch ranges) : after.tree.HoldsCases switch ranges := by
  refine holds.extend commands.isExtension fun {cases} isCase first => ?_
  have inside := lt_of_isSwitch holds.isSwitch
  have bare : ∀ {node : Node}, node.statements = [] → ∀ id ∈ node.statements, id ∉ cases :=
    fun empty id held _ => absurd (empty ▸ held) List.not_mem_nil
  obtain ⟨name, arguments, -, rfl⟩ := commands.added
  refine ((first.add inside (bare rfl)).add (by simpa using Nat.lt_succ_of_lt inside)
    (bare rfl)).append fun listed => ?_
  obtain ⟨label, body, here⟩ := isCase _ listed
  rw [node_of_le (Nat.le_succ _)] at here
  cases here

/-- A recovery that goes on leaves the cases of a switch where they are. -/
theorem Plays.holdsCases (plays : Plays terms before ids after)
    (holds : before.tree.HoldsCases switch ranges) : after.tree.HoldsCases switch ranges := by
  induction plays with
  | refl => exact holds
  | move _ move induction => exact move.holdsCases induction
  | command _ command induction => exact command.holdsCases induction

end Playing

end NwScript
