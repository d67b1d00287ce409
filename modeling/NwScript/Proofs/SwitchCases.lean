import NwScript.Proofs.FramedSteps
import NwScript.Proofs.KeptCases

/-!
# Cases of a switch

The cases of a switch are what it dispatches on, sorted by where they begin.  Sorting keeps the order of
cases that begin at one place, and each case ends where the next one begins, so the cases lie side by
side and fill everything from the first one to the end of the switch.  A position in between thus
belongs to one case, the last of those that have begun there.
-/

namespace NwScript

namespace CaseRange

variable {α β : Type} {limit position : Nat} {ranges : List (CaseRange α)}

/-- A position lies in a case. -/
def Holds (range : CaseRange α) (position : Nat) : Prop :=
  range.start ≤ position ∧ position < range.limit

/-- What cases are built for: one for each literal in the order of the dispatch, and behind them the
default case if it begins before the end. -/
def dispatched (cases : List (α × Nat)) (default limit : Nat) : List (Option α × Nat) :=
  cases.map (fun entry => (some entry.1, entry.2)) ++
    if default < limit then [(none, default)] else []

section Sorting

/-- One case begins no later than another one. -/
def precedes (left right : Option α × Nat) : Bool :=
  left.2 ≤ right.2

theorem precedes_trans (first second third : Option α × Nat) (one : precedes first second)
    (other : precedes second third) : precedes first third := by
  simp only [precedes, decide_eq_true_eq] at one other ⊢
  exact Nat.le_trans one other

theorem precedes_total (first second : Option α × Nat) : precedes first second || precedes second first := by
  simp only [precedes, Bool.or_eq_true, decide_eq_true_eq]
  exact Nat.le_total _ _

theorem ordered_eq_mergeSort (cases : List (α × Nat)) (default limit : Nat) :
    ordered cases default limit = (dispatched cases default limit).mergeSort precedes := by
  rw [ordered, dispatched]
  split
  · rfl
  · rw [List.append_nil]
    rfl

theorem ordered_perm (cases : List (α × Nat)) (default limit : Nat) :
    (ordered cases default limit).Perm (dispatched cases default limit) := by
  rw [ordered_eq_mergeSort]
  exact List.mergeSort_perm _ _

theorem pairwise_ordered (cases : List (α × Nat)) (default limit : Nat) :
    (ordered cases default limit).Pairwise fun left right => left.2 ≤ right.2 := by
  rw [ordered_eq_mergeSort]
  refine (List.pairwise_mergeSort precedes_trans precedes_total _).imp fun sorted => ?_
  exact of_decide_eq_true sorted

/-- Sorting keeps the order of what begins at one place. -/
theorem filter_ordered (cases : List (α × Nat)) (default limit start : Nat) :
    (ordered cases default limit).filter (·.2 = start) =
      (dispatched cases default limit).filter (·.2 = start) := by
  have together : ((dispatched cases default limit).filter (·.2 = start)).Pairwise
      fun left right => precedes left right := by
    refine List.pairwise_of_forall_mem_list fun left here right there => ?_
    rw [precedes, of_decide_eq_true (List.mem_filter.mp here).2,
      of_decide_eq_true (List.mem_filter.mp there).2]
    exact decide_eq_true (Nat.le_refl start)
  have kept := (List.sublist_mergeSort precedes_trans precedes_total together
    List.filter_sublist).filter (·.2 = start)
  rw [List.filter_filter, ← ordered_eq_mergeSort] at kept
  simp only [Bool.and_self] at kept
  exact (kept.eq_of_length ((ordered_perm _ _ _).filter _).length_eq.symm).symm

end Sorting

section Dividing

variable {cases : List (Option α × Nat)}

/-- Cases end no earlier than they begin. -/
theorem start_le_limit_of_mem_divide
    (sorted : cases.Pairwise fun left right => left.2 ≤ right.2) (before : ∀ entry ∈ cases, entry.2 ≤ limit) :
    ∀ range ∈ divide limit cases, range.start ≤ range.limit := by
  fun_induction divide limit cases with
  | case1 => exact fun _ listed => absurd listed List.not_mem_nil
  | case2 label start => simpa using before
  | case3 label start next following rest induction =>
      obtain ⟨first, others⟩ := List.pairwise_cons.mp sorted
      refine List.forall_mem_cons.mpr ⟨first _ List.mem_cons_self, induction others ?_⟩
      exact (List.forall_mem_cons.mp before).2

/-- No case begins before the first one. -/
theorem le_start_of_mem_divide {start : Nat} (behind : ∀ entry ∈ cases, start ≤ entry.2) :
    ∀ range ∈ divide limit cases, start ≤ range.start := by
  intro range listed
  have image := List.mem_map_of_mem (f := fun range => (range.label, range.start)) listed
  rw [map_divide] at image
  exact behind _ image

/-- A case ends before the later ones begin. -/
theorem pairwise_divide (sorted : cases.Pairwise fun left right => left.2 ≤ right.2) :
    (divide limit cases).Pairwise fun left right => left.limit ≤ right.start := by
  fun_induction divide limit cases with
  | case1 => exact .nil
  | case2 label start => exact List.pairwise_singleton _ _
  | case3 label start next following rest induction =>
      obtain ⟨_, others⟩ := List.pairwise_cons.mp sorted
      refine .cons (le_start_of_mem_divide ?_) (induction others)
      exact List.forall_mem_cons.mpr ⟨Nat.le_refl _, (List.pairwise_cons.mp others).1⟩

/-- The cases fill everything from the first one to the end. -/
theorem exists_holds_divide_iff (sorted : cases.Pairwise fun left right => left.2 ≤ right.2)
    (before : ∀ entry ∈ cases, entry.2 ≤ limit) :
    (∃ range ∈ divide limit cases, range.Holds position) ↔
      (∃ entry ∈ cases, entry.2 ≤ position) ∧ position < limit := by
  fun_induction divide limit cases with
  | case1 => simp
  | case2 label start => simp [Holds]
  | case3 label start next following rest induction =>
      obtain ⟨first, others⟩ := List.pairwise_cons.mp sorted
      obtain ⟨_, ends⟩ := List.forall_mem_cons.mp before
      have order : start ≤ following := first _ List.mem_cons_self
      have last : following ≤ limit := ends _ List.mem_cons_self
      have begun : (∃ entry ∈ (next, following) :: rest, entry.2 ≤ position) ↔ following ≤ position := by
        refine ⟨?_, fun reached => ⟨_, List.mem_cons_self, reached⟩⟩
        rintro ⟨entry, listed, reached⟩
        rcases List.mem_cons.mp listed with rfl | later
        · exact reached
        · exact Nat.le_trans ((List.pairwise_cons.mp others).1 entry later) reached
      rw [List.exists_mem_cons_iff, induction others ends, begun, List.exists_mem_cons_iff, begun]
      simp only [Holds]
      omega

end Dividing

/-- Cases in order that lie side by side. -/
structure Tiles (entries : List (Option α × Nat)) (limit : Nat) (ranges : List (CaseRange α)) : Prop where
  /-- There is one case for each entry, which begins where it says. -/
  perm : (ranges.map fun range => (range.label, range.start)).Perm entries
  /-- Cases come in the order of where they begin. -/
  sorted : ranges.Pairwise fun left right => left.start ≤ right.start
  /-- Cases that begin at one place come in the order of the entries. -/
  stable : ∀ start, (ranges.filter (·.start = start)).map (·.label) =
    (entries.filter (·.2 = start)).map (·.1)
  /-- Cases end no earlier than they begin. -/
  forward : ∀ range ∈ ranges, range.start ≤ range.limit
  /-- A case ends before the later ones begin. -/
  disjoint : ranges.Pairwise fun left right => left.limit ≤ right.start
  /-- Together they hold everything from the smallest start to the end. -/
  covers : ∀ position, (∃ range ∈ ranges, range.Holds position) ↔
    (∃ range ∈ ranges, range.start ≤ position) ∧ position < limit

theorem tiles_ofDispatch {cases : List (α × Nat)} {default : Nat}
    (before : ∀ entry ∈ cases, entry.2 ≤ limit) :
    Tiles (dispatched cases default limit) limit (ofDispatch cases default limit) := by
  have sorted := pairwise_ordered cases default limit
  have image := map_divide limit (ordered cases default limit)
  have ends : ∀ entry ∈ ordered cases default limit, entry.2 ≤ limit := by
    intro entry listed
    rw [(ordered_perm cases default limit).mem_iff, dispatched] at listed
    rcases List.mem_append.mp listed with labelled | last
    · obtain ⟨former, there, rfl⟩ := List.mem_map.mp labelled
      exact before former there
    · split at last
      · rename_i early
        rw [List.mem_singleton.mp last]
        exact Nat.le_of_lt early
      · cases last
  refine ⟨?_, ?_, fun start => ?_, start_le_limit_of_mem_divide sorted ends, pairwise_divide sorted,
    fun position => ?_⟩
  · rw [ofDispatch, image]
    exact ordered_perm cases default limit
  · rw [← image, List.pairwise_map] at sorted
    exact sorted
  · rw [← filter_ordered cases default limit start, ← image, List.filter_map, List.map_map]
    rfl
  · refine (exists_holds_divide_iff sorted ends).trans (and_congr_left' ?_)
    constructor
    · rintro ⟨entry, listed, reached⟩
      rw [← image] at listed
      obtain ⟨range, there, rfl⟩ := List.mem_map.mp listed
      exact ⟨range, there, reached⟩
    · rintro ⟨range, there, reached⟩
      refine ⟨(range.label, range.start), ?_, reached⟩
      rw [← image]
      exact List.mem_map_of_mem there

/-- The number of the case that a position belongs to: the last one that has begun there, and the only
one that holds it. -/
structure IsAt (ranges : List (CaseRange α)) (position index : Nat) : Prop where
  /-- There is such a case. -/
  inside : index < ranges.length
  /-- Exactly the cases up to this one have begun. -/
  begun : ∀ {other : Nat} {range : CaseRange α}, ranges[other]? = some range →
    (range.start ≤ position ↔ other ≤ index)
  /-- No other case holds the position. -/
  only : ∀ {other : Nat} {range : CaseRange α}, ranges[other]? = some range →
    (range.Holds position ↔ other = index)

/-- Every position from the smallest start to the end belongs to a case. -/
theorem Tiles.exists_isAt {entries : List (Option α × Nat)} (tiles : Tiles entries limit ranges)
    (begun : ∃ range ∈ ranges, range.start ≤ position) (before : position < limit) :
    ∃ index, IsAt ranges position index := by
  obtain ⟨range, listed, holds⟩ := (tiles.covers position).mpr ⟨begun, before⟩
  obtain ⟨index, found⟩ := List.getElem?_of_mem listed
  obtain ⟨inside, rfl⟩ := List.getElem?_eq_some_iff.mp found
  have apart := List.pairwise_iff_getElem.mp tiles.disjoint
  have earlier : ∀ {other : Nat} {range : CaseRange α}, ranges[other]? = some range → other < index →
      range.start ≤ position ∧ range.limit ≤ position := by
    intro other range there less
    obtain ⟨within, rfl⟩ := List.getElem?_eq_some_iff.mp there
    have ended := Nat.le_trans (apart other index within inside less) holds.1
    exact ⟨Nat.le_trans (tiles.forward _ (List.getElem_mem within)) ended, ended⟩
  have later : ∀ {other : Nat} {range : CaseRange α}, ranges[other]? = some range → index < other →
      position < range.start := by
    intro other range there less
    obtain ⟨within, rfl⟩ := List.getElem?_eq_some_iff.mp there
    exact Nat.lt_of_lt_of_le holds.2 (apart index other inside within less)
  refine ⟨index, inside, fun {other range} there => ?_, fun {other range} there => ?_⟩ <;>
    rcases Nat.lt_trichotomy other index with less | rfl | more
  · exact iff_of_true (earlier there less).1 (Nat.le_of_lt less)
  · obtain rfl := Option.some.inj (there.symm.trans found)
    exact iff_of_true holds.1 (Nat.le_refl _)
  · exact iff_of_false (Nat.not_le.mpr (later there more)) (Nat.not_le.mpr more)
  · exact iff_of_false (fun held => Nat.not_lt.mpr (earlier there less).2 held.2) (Nat.ne_of_lt less)
  · obtain rfl := Option.some.inj (there.symm.trans found)
    exact iff_of_true holds rfl
  · exact iff_of_false (fun held => Nat.not_le.mpr (later there more) held.1) (Nat.ne_of_gt more)

section Labels

/-- The case with what its label stands for. -/
def map (read : α → β) (range : CaseRange α) : CaseRange β :=
  ⟨range.label.map read, range.start, range.limit⟩

theorem divide_map (read : α → β) (limit : Nat) (cases : List (Option α × Nat)) :
    divide limit (cases.map fun entry => (entry.1.map read, entry.2)) =
      (divide limit cases).map (map read) := by
  fun_induction divide limit cases with
  | case1 => rfl
  | case2 label start => rfl
  | case3 label start next following rest induction =>
      simp only [List.map_cons] at induction ⊢
      rw [divide, induction]
      rfl

/-- How cases lie does not depend on their labels. -/
theorem ofDispatch_map (read : α → β) (cases : List (α × Nat)) (default limit : Nat) :
    ofDispatch (cases.map fun entry => (read entry.1, entry.2)) default limit =
      (ofDispatch cases default limit).map (map read) := by
  have entries : dispatched (cases.map fun entry => (read entry.1, entry.2)) default limit =
      (dispatched cases default limit).map fun entry => (entry.1.map read, entry.2) := by
    rw [dispatched, dispatched, List.map_append, List.map_map, List.map_map]
    split <;> rfl
  rw [ofDispatch, ofDispatch, ← divide_map, ordered_eq_mergeSort, ordered_eq_mergeSort, entries]
  have moved : ∀ one ∈ dispatched cases default limit, ∀ other ∈ dispatched cases default limit,
      precedes one other = precedes (one.1.map read, one.2) (other.1.map read, other.2) :=
    fun _ _ _ _ => rfl
  exact congrArg (divide limit) (List.map_mergeSort moved).symm

end Labels

end CaseRange

namespace ScriptTree

/-- The literal at a node. -/
def literalAt (tree : ScriptTree) (id : NodeId) : Constant :=
  match tree.node id with
  | .literal value => value
  | _ => .int 0

variable {tree : ScriptTree} {id : NodeId}

/-- A case that is labelled with a literal or is the default case. -/
theorem caseRange?_eq_some {range : CaseRange NodeId}
    (here : tree.node id = .case range.label { start := range.start, limit := range.limit })
    (labelled : ∀ label ∈ range.label, ∃ value, tree.node label = .literal value) :
    tree.caseRange? id = some (range.map tree.literalAt) := by
  obtain ⟨label, start, limit⟩ := range
  cases label with
  | none =>
      rw [caseRange?, here]
      rfl
  | some label =>
      obtain ⟨value, known⟩ := labelled label rfl
      rw [caseRange?, here]
      dsimp only
      rw [known, CaseRange.map, Option.map_some, literalAt, known]

theorem map_caseRange?_eq {cases : List NodeId} {ranges : List (CaseRange NodeId)}
    (built : cases.map tree.node = ranges.map fun range =>
      .case range.label { start := range.start, limit := range.limit })
    (labelled : ∀ range ∈ ranges, ∀ label ∈ range.label, ∃ value, tree.node label = .literal value) :
    cases.map tree.caseRange? = (ranges.map (.map tree.literalAt)).map some := by
  induction cases generalizing ranges with
  | nil =>
      obtain rfl := List.map_eq_nil_iff.mp built.symm
      rfl
  | cons id cases induction =>
      cases ranges with
      | nil => cases built
      | cons range ranges =>
          obtain ⟨here, rest⟩ := List.cons.inj built
          obtain ⟨first, others⟩ := List.forall_mem_cons.mp labelled
          rw [List.map_cons, induction rest others, caseRange?_eq_some here first]
          rfl

end ScriptTree

namespace Recover

open ScriptTree Recovery

variable {input : RecoveryInput} {command : Nat} {before : Recovery}

section Steps

/-- A step never fails. -/
def Succeeds {α : Type} (step : Recover α) : Prop :=
  ∀ before, ∃ value after, Runs step before value after

theorem Succeeds.reads {α : Type} {next : Recovery → Recover α}
    (rest : ∀ recovery, Succeeds (next recovery)) : Succeeds (get >>= next) := by
  intro before
  obtain ⟨value, after, runs⟩ := rest before before
  exact ⟨value, after, (Runs.reads before).bind runs⟩

theorem useTemporary_succeeds (var : VarId) (live : Bool) : Succeeds (useTemporary var live) := by
  refine .reads fun recovery => ?_
  split
  · split <;> exact fun _ => ⟨_, _, rfl⟩
  · exact fun _ => ⟨_, _, rfl⟩

/-- What stays on the stack has an expression. -/
theorem peekExpression_succeeds (entry : StackEntry) : Succeeds (peekExpression entry) := by
  refine .reads fun recovery => ?_
  split
  · exact fun _ => ⟨_, _, rfl⟩
  · split
    · exact useTemporary_succeeds _ _
    · exact fun _ => ⟨_, _, rfl⟩

theorem consume_succeeds (entry : StackEntry) : Succeeds (consume entry) := by
  cases entry <;> exact fun _ => ⟨_, _, rfl⟩

/-- Nodes that are there stay as they are, new ones hold nothing, and the same scopes are open. -/
structure OnlyAdds (before after : Recovery) : Prop where
  /-- No node is lost. -/
  size : before.tree.size ≤ after.tree.size
  /-- Nodes stay. -/
  node : ∀ id < before.tree.size, after.tree.node id = before.tree.node id
  /-- New nodes hold nothing. -/
  bare : ∀ id, before.tree.size ≤ id → after.tree.children id = []
  /-- The same scopes are open. -/
  scopes : after.scopes = before.scopes

theorem onlyAdds_add (before : Recovery) {node : Node} (empty : node.statements = []) :
    OnlyAdds before { before with tree := (before.tree.add node).1 } := by
  refine ⟨by simp, fun _ inside => node_add_of_lt node inside, fun id beyond => ?_, rfl⟩
  rcases Nat.eq_or_lt_of_le beyond with rfl | further
  · rw [children_eq, node_add_self, empty]
  · exact children_of_le ((size_add _ _).trans_le further)

theorem OnlyAdds.trans {middle after : Recovery} (first : OnlyAdds before middle)
    (second : OnlyAdds middle after) : OnlyAdds before after where
  size := Nat.le_trans first.size second.size
  node := fun id inside =>
    (second.node id (Nat.lt_of_lt_of_le inside first.size)).trans (first.node id inside)
  bare := fun id beyond => by
    by_cases early : id < middle.tree.size
    · rw [children_eq, second.node id early, ← children_eq, first.bare id beyond]
    · exact second.bare id (Nat.not_lt.mp early)
  scopes := second.scopes.trans first.scopes

/-- Each label becomes a literal. -/
theorem addLabels_reaches (cases : List (Constant × Nat)) (before : Recovery) :
    Reaches (addLabels cases) before fun labels after => OnlyAdds before after ∧
      labels.map (fun label => (after.tree.literalAt label.1, label.2)) = cases ∧
      ∀ label ∈ labels, label.1 < after.tree.size ∧
        ∃ value, after.tree.node label.1 = .literal value := by
  induction cases generalizing before with
  | nil =>
      exact ⟨[], before, rfl, ⟨Nat.le_refl _, fun _ _ => rfl, fun _ => children_of_le, rfl⟩, rfl,
        fun _ listed => absurd listed List.not_mem_nil⟩
  | cons entry cases induction =>
      obtain ⟨labels, after, runs, adds, named, literals⟩ := induction
        { before with tree := (before.tree.add (.literal entry.1)).1 }
      have here : after.tree.node before.tree.size = .literal entry.1 := by
        rw [adds.node _ (by simp)]
        exact node_add_self _ _
      refine ⟨(before.tree.size, entry.2) :: labels, after,
        (addNode_runs _ _).bind (runs.bind (.done _ _)), (onlyAdds_add before rfl).trans adds, ?_, ?_⟩
      · rw [List.map_cons, named, literalAt, here]
      · refine List.forall_mem_cons.mpr ⟨⟨?_, _, here⟩, literals⟩
        exact Nat.lt_of_lt_of_le (by simp) adds.size

/-- A switch that is not open gets a case for each range. -/
structure Fills (switch : NodeId) (ranges : List (CaseRange NodeId)) (before after : Recovery) : Prop where
  /-- The same scopes are open. -/
  scopes : after.scopes = before.scopes
  /-- No node is lost. -/
  size : before.tree.size ≤ after.tree.size
  /-- Other nodes stay. -/
  node : ∀ id < before.tree.size, id ≠ switch → after.tree.node id = before.tree.node id
  /-- Other nodes hold what they held. -/
  only : ∀ {holder child : NodeId}, child ∈ after.tree.children holder →
    holder = switch ∨ child ∈ before.tree.children holder
  /-- The new cases are behind the others. -/
  cases : ∃ cases : List NodeId,
    after.tree.node switch = (before.tree.node switch).holding (before.tree.children switch ++ cases) ∧
    (∀ id ∈ cases, before.tree.size ≤ id ∧ id < after.tree.size) ∧
    cases.map after.tree.node = ranges.map fun range =>
      .case range.label { start := range.start, limit := range.limit }

section Filling

variable {switch : NodeId} {ranges more : List (CaseRange NodeId)} {middle after : Recovery}
  (owns : (before.tree.node switch).body?.isSome)

include owns

theorem Fills.body_isSome (fills : Fills switch ranges before after) :
    (after.tree.node switch).body?.isSome := by
  obtain ⟨cases, held, -⟩ := fills.cases
  rw [held, Node.body?_mapBody, Option.isSome_map]
  exact owns

theorem Fills.trans (first : Fills switch ranges before middle) (second : Fills switch more middle after) :
    Fills switch (ranges ++ more) before after := by
  obtain ⟨cases, held, fresh, built⟩ := first.cases
  obtain ⟨others, held_more, newer, built_more⟩ := second.cases
  have apart : ∀ {id}, before.tree.size ≤ id → id ≠ switch :=
    fun beyond => Nat.ne_of_gt (Nat.lt_of_lt_of_le (lt_of_body? owns) beyond)
  refine ⟨second.scopes.trans first.scopes, first.size.trans second.size, fun id old other => ?_,
    fun held => ?_, cases ++ others, ?_, fun id listed => ?_, ?_⟩
  · rw [second.node id (Nat.lt_of_lt_of_le old first.size) other, first.node id old other]
  · exact (second.only held).elim .inl first.only
  · rw [held_more, children_eq, held, Node.statements_holding owns, Node.holding_holding,
      List.append_assoc]
  · rcases List.mem_append.mp listed with early | late
    · exact ⟨(fresh id early).1, (fresh id early).2.trans_le second.size⟩
    · exact ⟨first.size.trans (newer id late).1, (newer id late).2⟩
  · rw [List.map_append, List.map_append, built_more, ← built]
    refine congrArg (· ++ _) (List.map_congr_left fun id listed => ?_)
    exact second.node id (fresh id listed).2 (apart (fresh id listed).1)

/-- A case is added and attached. -/
theorem fills_append (range : CaseRange NodeId) : Fills switch [range] before
    { before with
      tree := (before.tree.add (.case range.label { start := range.start, limit := range.limit })).1.append
        switch before.tree.size } := by
  let node : Node := .case range.label { start := range.start, limit := range.limit }
  have inside := lt_of_body? owns
  have same := node_add_of_lt node inside
  have nodes := node_append_eq (show ((before.tree.add node).1.node switch).body?.isSome by rwa [same])
    before.tree.size
  have held : (before.tree.add node).1.children switch = before.tree.children switch := by
    rw [children_eq, same, ← children_eq]
  refine ⟨rfl, by simp, fun id old other => ?_, fun {holder child} held => ?_, [before.tree.size], ?_,
    by simp, ?_⟩
  · rw [nodes, Function.update_of_ne other, node_add_of_lt node old]
  · refine or_iff_not_imp_left.mpr fun other => ?_
    rw [children_append_of_ne other] at held
    rcases Nat.lt_or_ge holder before.tree.size with old | beyond
    · rwa [children_eq, node_add_of_lt node old] at held
    · have empty := (onlyAdds_add before (show node.statements = [] from rfl)).bare holder beyond
      exact absurd (empty ▸ held) List.not_mem_nil
  · rw [nodes, Function.update_self, held, same]
  · rw [List.map_singleton, nodes, Function.update_of_ne (Nat.ne_of_gt inside), node_add_self]
    rfl

end Filling

/-- Each range becomes a case of the switch. -/
theorem addCases_reaches {switch : NodeId} (ranges : List (CaseRange NodeId)) (before : Recovery)
    (owns : (before.tree.node switch).body?.isSome) :
    Reaches (addCases switch ranges) before fun _ after => Fills switch ranges before after := by
  induction ranges generalizing before with
  | nil =>
      refine ⟨(), before, rfl, rfl, Nat.le_refl _, fun _ _ _ => rfl, .inr, [], ?_, by simp, rfl⟩
      rw [List.append_nil]
      exact (Node.holding_statements _).symm
  | cons range ranges induction =>
      have here := fills_append owns range
      obtain ⟨_, after, runs, fills⟩ := induction _ (here.body_isSome owns)
      exact ⟨(), after, (addNode_runs _ _).bind ((onTree_runs _ _).bind runs), here.trans owns fills⟩

end Steps

end Recover

namespace Recovery

open ScriptTree

variable {recovery : Recovery} {ranges : List (CaseRange Constant)} {position index : Nat}

/-- The body of a case holds what the case holds. -/
theorem body_holds_iff {id : NodeId} {range : CaseRange Constant}
    (reads : recovery.tree.caseRange? id = some range) (position : Nat) :
    (recovery.tree.node id).body?.any (·.holds position) = true ↔ range.Holds position := by
  obtain ⟨body, owns, start, limit⟩ := body?_of_caseRange? reads
  rw [owns, Option.any_some, Body.holds, start, limit, Bool.and_eq_true, decide_eq_true_iff,
    decide_eq_true_iff, CaseRange.Holds]

/-- The case that a position belongs to is the one that is found for it. -/
theorem exists_caseAt? (holds : recovery.tree.HoldsCases recovery.current ranges)
    (isAt : CaseRange.IsAt ranges position index) :
    ∃ id, (recovery.tree.children recovery.current)[index]? = some id ∧
      recovery.tree.caseRange? id = ranges[index]? ∧ recovery.caseAt? position = some id := by
  have here := List.getElem?_eq_getElem isAt.inside
  obtain ⟨id, found, reads⟩ := holds.getElem? here
  refine ⟨id, found, reads.trans here.symm, ?_⟩
  obtain ⟨inside, same⟩ := List.getElem?_eq_some_iff.mp found
  rw [Recovery.caseAt?, if_pos holds.isSwitch, List.find?_eq_some_iff_getElem]
  refine ⟨(body_holds_iff reads position).mpr ((isAt.only here).mpr rfl), index, inside, same,
    fun other less => ?_⟩
  have former := List.getElem?_eq_getElem (Nat.lt_trans less isAt.inside)
  obtain ⟨earlier, known, apart⟩ := holds.getElem? former
  obtain ⟨_, rfl⟩ := List.getElem?_eq_some_iff.mp known
  rw [Bool.not_eq_true', Bool.eq_false_iff]
  exact fun holds => Nat.ne_of_lt less ((isAt.only former).mp ((body_holds_iff apart position).mp holds))

end Recovery

namespace Recover

open ScriptTree Recovery CaseRange

variable {input : RecoveryInput} {command default pop : Nat} {dispatch : Dispatch} {before : Recovery}

/-- A switch that has just been opened. -/
structure OpensSwitch (start limit : Nat) (ranges : List (CaseRange Constant)) (before after : Recovery) :
    Prop where
  /-- It is the innermost open node, and the scopes around it are as before. -/
  scopes : after.scopes = ⟨after.current, after.stack.height⟩ :: before.scopes
  /-- It holds its cases and nothing else, and they are empty. -/
  node : ∃ subject cases, after.tree.node after.current = .switch subject { children := cases, start, limit } ∧
    cases.map after.tree.caseRange? = ranges.map some ∧ ∀ id ∈ cases, after.tree.children id = []
  /-- Its cases stand nowhere else. -/
  only : ∀ id ∈ after.tree.children after.current, ∀ holder, id ∈ after.tree.children holder →
    holder = after.current

theorem OpensSwitch.holdsCases {start limit : Nat} {ranges : List (CaseRange Constant)} {after : Recovery}
    (opens : OpensSwitch start limit ranges before after) :
    after.tree.HoldsCases after.current ranges := by
  obtain ⟨subject, cases, here, reads, _⟩ := opens.node
  have held : after.tree.children after.current = cases := by
    rw [children_eq, here]
    rfl
  refine ⟨by rw [here]; rfl, cases, ⟨⟨[], ?_, fun _ _ => List.not_mem_nil⟩, held ▸ opens.only⟩, reads⟩
  rw [held, List.append_nil]

/-- A switch with its cases has been made behind the nodes that were there, and stands nowhere yet. -/
structure BuildsSwitch (subject : NodeId) (start limit : Nat) (ranges : List (CaseRange Constant))
    (before after : Recovery) : Prop where
  /-- The same scopes are open. -/
  scopes : after.scopes = before.scopes
  /-- It holds its cases and nothing else, they are empty, and nothing else holds them. -/
  node : ∃ cases, after.tree.node before.tree.size = .switch subject { children := cases, start, limit } ∧
    cases.map after.tree.caseRange? = ranges.map some ∧
    ∀ id ∈ cases, before.tree.size < id ∧ after.tree.children id = [] ∧
      ∀ holder, id ∈ after.tree.children holder → holder = before.tree.size

/-- The labels and the cases of a switch can be added. -/
theorem exists_buildsSwitch (subject : NodeId) (start limit : Nat) (cases : List (Constant × Nat))
    (default : Nat) (bounded : ∀ {holder child : NodeId},
      child ∈ before.tree.children holder → child < before.tree.size) :
    ∃ labels labelled filled,
      Runs (addLabels cases)
        { before with tree := (before.tree.add (.switch subject { start, limit })).1 } labels labelled ∧
      Runs (addCases before.tree.size (ofDispatch labels default limit)) labelled () filled ∧
      BuildsSwitch subject start limit (ofDispatch cases default limit) before filled := by
  let node : Node := .switch subject { start, limit }
  obtain ⟨labels, labelled, labelling, adds, named, literals⟩ :=
    addLabels_reaches cases { before with tree := (before.tree.add node).1 }
  have grown : OnlyAdds before labelled := (onlyAdds_add before rfl).trans adds
  have behind : before.tree.size < labelled.tree.size :=
    Nat.lt_of_lt_of_le (by rw [size_add]; exact Nat.lt_succ_self _) adds.size
  have here : labelled.tree.node before.tree.size = node := by
    rw [adds.node _ (by rw [size_add]; exact Nat.lt_succ_self _)]
    exact node_add_self _ _
  obtain ⟨_, filled, filling, fills⟩ :=
    addCases_reaches (ofDispatch labels default limit) labelled (by rw [here]; rfl)
  obtain ⟨built, held, fresh, placed⟩ := fills.cases
  have literal : ∀ label ∈ labels, filled.tree.node label.1 = labelled.tree.node label.1 := by
    intro label listed
    obtain ⟨within, value, known⟩ := literals label listed
    refine fills.node label.1 within fun same => ?_
    have clash : Node.literal value = .switch subject { start, limit } :=
      (same ▸ known).symm.trans here
    cases clash
  refine ⟨labels, labelled, filled, labelling, filling, fills.scopes.trans grown.scopes, built, ?_, ?_,
    fun id listed => ⟨behind.trans_le (fresh id listed).1, ?_, fun holder held => ?_⟩⟩
  · rw [held, here, children_eq, here]
    rfl
  · refine (map_caseRange?_eq placed fun range listed label labels_it => ?_).trans ?_
    · obtain ⟨entry, there, rfl⟩ := mem_of_ofDispatch listed labels_it
      obtain ⟨-, value, known⟩ := literals entry there
      exact ⟨value, (literal entry there).trans known⟩
    · have values : cases = labels.map fun label => (filled.tree.literalAt label.1, label.2) := by
        rw [← named]
        refine List.map_congr_left fun label listed => ?_
        rw [literalAt, literalAt, literal label listed]
      rw [← ofDispatch_map, ← values]
  · have image := List.mem_map_of_mem (f := filled.tree.node) listed
    rw [placed] at image
    obtain ⟨range, -, same⟩ := List.mem_map.mp image
    rw [children_eq, ← same]
    rfl
  · refine (fills.only held).resolve_right fun former => ?_
    rcases Nat.lt_or_ge holder before.tree.size with old | beyond
    · rw [children_eq, grown.node holder old] at former
      exact Nat.lt_asymm (bounded former) (behind.trans_le (fresh id listed).1)
    · exact absurd (grown.bare holder beyond ▸ former) List.not_mem_nil

/-- A switch that was built is opened. -/
theorem BuildsSwitch.opens {subject : NodeId} {start limit : Nat} {ranges : List (CaseRange Constant)}
    {after : Recovery} (builds : BuildsSwitch subject start limit ranges before after)
    (outside : after.current < before.tree.size) :
    OpensSwitch start limit ranges before
      { after with
        tree := after.tree.append after.current before.tree.size
        scopes := ⟨before.tree.size, after.stack.height⟩ :: after.scopes } := by
  obtain ⟨cases, here, reads, each⟩ := builds.node
  have kept : ∀ {id}, before.tree.size ≤ id →
      (after.tree.append after.current before.tree.size).node id = after.tree.node id := by
    intro id beyond
    rw [node_append, if_neg (Nat.ne_of_gt (Nat.lt_of_lt_of_le outside beyond))]
  have extension := (Rearranges.append after.tree after.current before.tree.size).isExtension
  have held : (after.tree.append after.current before.tree.size).children before.tree.size = cases := by
    rw [children_eq, kept (Nat.le_refl _), here]
    rfl
  refine ⟨congrArg _ builds.scopes, ⟨subject, cases, (kept (Nat.le_refl _)).trans here,
    extension.map_caseRange? reads, fun id listed => ?_⟩, fun id listed holder there => ?_⟩
  · rw [children_eq, kept (Nat.le_of_lt (each id listed).1)]
    exact (each id listed).2.1
  · obtain ⟨behind, -, only⟩ := each id (held ▸ listed)
    exact only holder ((mem_children_append there).resolve_right (Nat.ne_of_gt behind))

/-- When the end of a switch is known it is opened. -/
theorem openSwitch_reaches
    (ends : input.switchEnd command (dispatch.cases.map (·.2)) default = .ok (some pop))
    (sound : before.IsSound input.catalog) (entry : before.tree.IsEntry input.catalog dispatch.subject) :
    Reaches (openSwitch input command dispatch default) before fun _ after =>
      OpensSwitch (input.program.positionAfter command) (input.program.position pop)
        (ofDispatch dispatch.cases default (input.program.position pop)) before after := by
  obtain ⟨subject, peeked, peeking⟩ := peekExpression_succeeds dispatch.subject before
  obtain ⟨_, consumed, consuming⟩ := consume_succeeds dispatch.subject peeked
  let terms : Terms := ⟨input.catalog, True, True⟩
  have known : peeked.IsSound terms.catalog :=
    ((peekExpression_yields fun _ => entry) sound peeking).1.isSound sound
  have used : consumed.IsSound terms.catalog := (consume_goes _ known consuming).1.isSound known
  obtain ⟨labels, labelled, filled, labelling, filling, builds⟩ := exists_buildsSwitch subject
    (input.program.positionAfter command) (input.program.position pop) dispatch.cases default
    fun held => (used.tree.children held).1
  have keeps := (peekExpression_quiet _ peeking).keeps.trans (consume_quiet _ consuming).keeps
  have same : filled.current = before.current := by
    rw [Recovery.current, Recovery.current, builds.scopes, keeps.scopes]
  have outside : filled.current < consumed.tree.size := by
    rw [same]
    exact Nat.lt_of_lt_of_le (lt_of_body? sound.current) keeps.tree.size
  obtain ⟨scopes, node, only⟩ := builds.opens outside
  exact ⟨(), _, (Runs.lift ends before).bind (peeking.bind (consuming.bind ((addNode_runs _ _).bind
    (labelling.bind (filling.bind ((emit_runs _ _).bind (Runs.changes _ _))))))),
    scopes.trans (congrArg _ keeps.scopes), node, only⟩

/-- The cases of a switch tile it: there is one for each literal, and one without a label exactly if the
default target lies before the end; they are ordered, lie side by side and fill the switch from the
first of them on.  However the recovery goes on, whenever the switch is the innermost open node, every
position in between leads into exactly one of them, the last one that has begun there. -/
theorem openSwitch_tiles
    (ends : input.switchEnd command (dispatch.cases.map (·.2)) default = .ok (some pop))
    (begun : ∀ entry ∈ dispatch.cases, entry.2 ≤ input.program.position pop)
    (sound : before.IsSound input.catalog) (entry : before.tree.IsEntry input.catalog dispatch.subject) :
    let limit := input.program.position pop
    let ranges := ofDispatch dispatch.cases default limit
    Tiles (dispatched dispatch.cases default limit) limit ranges ∧
    Reaches (openSwitch input command dispatch default) before fun _ after =>
      OpensSwitch (input.program.positionAfter command) limit ranges before after ∧
      ∀ (terms : Terms) (ids : List Nat) (later : Recovery), Plays terms after ids later →
        later.current = after.current → ∀ position : Nat,
        (∃ range ∈ ranges, range.start ≤ position) → position < limit →
        ∃ index id, IsAt ranges position index ∧
          (later.tree.children later.current)[index]? = some id ∧
          later.tree.caseRange? id = ranges[index]? ∧
          Runs (enterCase position) later ()
            { later with scopes := ⟨id, later.stack.height⟩ :: later.scopes } := by
  have tiles : Tiles _ (input.program.position pop)
      (ofDispatch dispatch.cases default (input.program.position pop)) := tiles_ofDispatch begun
  obtain ⟨value, after, runs, opens⟩ := openSwitch_reaches ends sound entry
  refine ⟨tiles, value, after, runs, opens, fun terms ids later plays same position reached early => ?_⟩
  have holds := plays.holdsCases opens.holdsCases
  rw [← same] at holds
  obtain ⟨index, isAt⟩ := tiles.exists_isAt reached early
  obtain ⟨id, found, reads, leads⟩ := Recovery.exists_caseAt? holds isAt
  refine ⟨index, id, isAt, found, reads, (Runs.reads later).bind ?_⟩
  rw [leads]
  exact Runs.changes _ _

end Recover

namespace RecoveryInput

open Recover CaseRange

/-- A dispatch ends with a jump to a default case that begins with two of three literals, and the switch
ends where its subject is popped. -/
def stackedCases : Program :=
  .ofNonempty
    [[⟨13, ⟨.jump, .void, .offset 8⟩⟩, ⟨19, .simple .nop .void⟩, ⟨21, .simple .nop .void⟩,
      ⟨23, ⟨.moveStack, .void, .offset (-4)⟩⟩, ⟨29, .simple .nop .void⟩, ⟨31, .simple .ret .void⟩]]
    (by simp)

/-- The recovery of this subroutine, with a global to dispatch on. -/
def stackingCases : RecoveryInput where
  program := stackedCases
  table := Liveness.markedTable stackedCases #[true, true, true, true, true, true]
  calls := ⟨.discrete 1, Array.replicate 6 none, [[0]]⟩
  catalog := ⟨[]⟩
  protos := #[{}]
  globals := [.int]
  layout := ⟨0, none, none, none, 0⟩
  names := ["main"]
  settings := {}

theorem openSwitch_tiles_stacked :
    let dispatch : Dispatch := ⟨.var 0, [(.int 1, 21), (.int 2, 19), (.int 3, 21)]⟩
    let ranges := ofDispatch dispatch.cases 21 23
    stackingCases.switchEnd 0 (dispatch.cases.map (·.2)) 21 = .ok (some 3) ∧
    Tiles (dispatched dispatch.cases 21 23) 23 ranges ∧
    Reaches (openSwitch stackingCases 0 dispatch 21) (stackingCases.start 0) fun _ after =>
      OpensSwitch 19 23 ranges (stackingCases.start 0) after ∧
      ∀ position : Nat, (∃ range ∈ ranges, range.start ≤ position) → position < 23 →
        ∃ index id, IsAt ranges position index ∧
          (after.tree.children after.current)[index]? = some id ∧
          after.tree.caseRange? id = ranges[index]? ∧
          Runs (enterCase position) after ()
            { after with scopes := ⟨id, after.stack.height⟩ :: after.scopes } := by
  intro dispatch ranges
  have ends : stackingCases.switchEnd 0 (dispatch.cases.map (·.2)) 21 = .ok (some 3) := by rfl
  have entry : (stackingCases.start 0).tree.IsEntry stackingCases.catalog dispatch.subject :=
    ⟨by decide +kernel, by decide +kernel⟩
  obtain ⟨tiles, value, after, runs, opens, enters⟩ :=
    openSwitch_tiles ends (by decide) (stackingCases.start_isSound 0) entry
  exact ⟨ends, tiles, value, after, runs, opens, enters ⟨⟨[]⟩, True, True⟩ [] after .refl rfl⟩

end RecoveryInput

end NwScript
