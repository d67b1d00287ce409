import NwScript.Proofs.CleanupRules

/-!
# Steps of a cleanup

Each application of a rule leaves every child statement in one place, and leads to no body that could
not be reached before.  So whatever holds of a tree because of this holds throughout a cleanup.
-/

namespace NwScript
namespace ScriptTree

/-- A relation that leads through one place on a detour stays free of circles: other chains were there
before, and from the place itself nothing can be reached that could not be reached from its only
predecessor. -/
theorem transGen_of_detour {α : Type} {before after : α → α → Prop} {entry detour : α}
    (different : entry ≠ detour)
    (straight : ∀ {upper lower}, upper ≠ detour → lower ≠ detour → after upper lower →
      Relation.TransGen before upper lower)
    (into : ∀ {upper}, after upper detour → upper = entry)
    (out : ∀ {lower}, lower ≠ detour → after detour lower → Relation.TransGen before entry lower)
    {first last : α} (start : first ≠ detour) (chain : Relation.TransGen after first last) :
    (last ≠ detour → Relation.TransGen before first last) ∧
      (last = detour → Relation.ReflTransGen before first entry) := by
  induction chain with
  | single edge =>
      refine ⟨fun apart => straight start apart edge, ?_⟩
      rintro rfl
      rw [into edge]
  | @tail middle last _ edge induction =>
      refine ⟨fun apart => ?_, ?_⟩
      · by_cases through : middle = detour
        · subst through
          exact Relation.TransGen.trans_right (induction.2 rfl) (out apart edge)
        · exact (induction.1 through).trans (straight through apart edge)
      · rintro rfl
        obtain rfl := into edge
        exact (induction.1 different).to_reflTransGen

section Rewrites

variable {before after : ScriptTree} {host new : NodeId} {statement : Node}
  {left old right : List NodeId}

namespace Rewrites

variable (rewrites : Rewrites host new statement left old right before after)

include rewrites

theorem owns : (before.node host).body?.isSome := by
  obtain ⟨first, others, rfl⟩ := List.exists_cons_of_ne_nil rewrites.taken
  have listed : first ∈ before.children host := by simp [rewrites.held]
  exact Node.owns_of_mem_statements listed

theorem held_of_mem {id : NodeId} (listed : id ∈ old) : id ∈ before.children host := by
  rw [rewrites.held]
  exact List.mem_append_left _ (List.mem_append_right _ listed)

theorem held_of_beside {id : NodeId} (beside : id ∈ left ++ right) : id ∈ before.children host := by
  rw [rewrites.held]
  rcases List.mem_append.mp beside with ahead | behind <;> simp [*]

theorem host_ne_new : host ≠ new := by
  rintro rfl
  simpa [rewrites.bare_before] using rewrites.owns

theorem node_new : after.node new = statement := by
  rw [rewrites.node, Function.update_self]

/-- Other nodes change at most their child statements. -/
theorem exists_node_eq {id : NodeId} (other : id ≠ new) :
    ∃ statements, after.node id = (before.node id).holding statements := by
  rw [rewrites.node, Function.update_of_ne other]
  by_cases same : id = host
  · exact ⟨left ++ new :: right, by rw [same, Function.update_self]⟩
  · exact ⟨(before.node id).statements, by
      rw [Function.update_of_ne same, Node.holding_statements]⟩

theorem operands_of_ne {id : NodeId} (other : id ≠ new) :
    (after.node id).operands = (before.node id).operands := by
  obtain ⟨statements, same⟩ := rewrites.exists_node_eq other
  rw [same, Node.operands_mapBody]

theorem children_host : after.children host = left ++ new :: right := by
  rw [children_eq, rewrites.node, Function.update_of_ne rewrites.host_ne_new, Function.update_self,
    Node.statements_holding rewrites.owns]

theorem children_of_ne {id : NodeId} (other : id ≠ host) :
    after.children id = before.children id := by
  rw [children_eq, children_eq, rewrites.node]
  by_cases same : id = new
  · rw [same, Function.update_self, Node.statements_eq_nil rewrites.bare,
      Node.statements_eq_nil rewrites.bare_before]
  · rw [Function.update_of_ne same, Function.update_of_ne other]

/-- A child statement afterwards is the statement itself or was a child statement before. -/
theorem child_cases {holder child : NodeId} (held : child ∈ after.children holder) :
    child = new ∧ holder = host ∨ child ∈ before.children holder := by
  by_cases same : holder = host
  · rw [same, rewrites.children_host, List.mem_append, List.mem_cons] at held
    rw [same, rewrites.held, List.mem_append, List.mem_append]
    tauto
  · rw [rewrites.children_of_ne same] at held
    exact .inr held

/-- Of the neighbours of the statement none is among the old ones. -/
theorem not_mem_old (placed : before.IsPlaced (some host)) {child : NodeId}
    (held : child ∈ left ++ right) : child ∉ old := by
  have once := placed.once host
  rw [rewrites.held, List.append_assoc] at once
  have swapped : (old ++ (left ++ right)).Nodup :=
    (List.perm_append_comm_assoc left old right).nodup_iff.mp once
  exact fun listed => List.disjoint_of_nodup_append swapped listed held

/-- Only the body refers to the statement. -/
theorem not_mem_operands (placed : before.IsPlaced (some host)) (user : NodeId) :
    new ∉ (before.node user).operands := by
  intro used
  rcases rewrites.place with ⟨fresh, _⟩ | ⟨listed, _⟩
  · exact Nat.lt_irrefl _ (fresh ▸ placed.inside (.inl used))
  · simpa [rewrites.plain_before listed] using placed.apart used (rewrites.held_of_mem listed)

theorem holder_eq_host (placed : before.IsPlaced (some host)) {holder : NodeId}
    (held : new ∈ before.children holder) : holder = host := by
  rcases rewrites.place with ⟨fresh, _⟩ | ⟨listed, _⟩
  · exact absurd (fresh ▸ placed.child_inside held) (Nat.lt_irrefl _)
  · have here := rewrites.held_of_mem listed
    have plain := rewrites.plain_before listed
    exact Option.some.inj ((placed.home held plain).symm.trans (placed.home here plain))

theorem new_not_mem (placed : before.IsPlaced (some host)) : new ∉ left ++ right := by
  intro listed
  rcases rewrites.place with ⟨fresh, _⟩ | ⟨taken, _⟩
  · exact Nat.lt_irrefl _ (fresh ▸ placed.child_inside (rewrites.held_of_beside listed))
  · exact rewrites.not_mem_old placed listed taken

/-- Other child statements than the old ones stay. -/
theorem stays (placed : before.IsPlaced (some host)) {holder child : NodeId}
    (held : child ∈ before.children holder) (kept : holder ≠ host ∨ child ∉ old) :
    child ≠ new ∧ child ∈ after.children holder := by
  refine ⟨?_, ?_⟩
  · rintro rfl
    rcases rewrites.place with ⟨fresh, _⟩ | ⟨listed, _⟩
    · exact Nat.lt_irrefl _ (fresh ▸ placed.child_inside held)
    · exact kept.elim (fun other => other (rewrites.holder_eq_host placed held)) (· listed)
  · by_cases here : holder = host
    · subst here
      rw [rewrites.held, List.mem_append, List.mem_append] at held
      rw [rewrites.children_host, List.mem_append, List.mem_cons]
      tauto
    · rwa [rewrites.children_of_ne here]

/-- An operand of the statement was an operand before, or is an expression that was taken over. -/
theorem operand_cases {operand : NodeId} (used : operand ∈ statement.operands) :
    (∃ user, operand ∈ (before.node user).operands) ∨
      operand ∈ old ∧ (before.node operand).isExpression := by
  rcases rewrites.operands operand used with kept | ⟨_, _, user, _, below⟩ | taken
  · exact .inl ⟨new, kept⟩
  · exact .inl ⟨user, below⟩
  · exact .inr taken

theorem ne_of_mem_operands (placed : before.IsPlaced (some host)) {operand : NodeId}
    (used : operand ∈ statement.operands) : operand ≠ new := by
  rintro rfl
  rcases rewrites.operand_cases used with ⟨user, below⟩ | ⟨taken, expression⟩
  · exact rewrites.not_mem_operands placed user below
  · simp [rewrites.plain_before taken] at expression

theorem below_of_ne {upper lower : NodeId} (higher : upper ≠ new)
    (other : lower ≠ new) (below : after.Below upper lower) : before.Below upper lower := by
  rcases below with used | held
  · exact .inl (rewrites.operands_of_ne higher ▸ used)
  · rcases rewrites.child_cases held with ⟨same, _⟩ | there
    · exact absurd same other
    · exact .inr there

theorem eq_host_of_below (placed : before.IsPlaced (some host)) {upper : NodeId}
    (below : after.Below upper new) : upper = host := by
  rcases below with used | held
  · by_cases same : upper = new
    · rw [same, rewrites.node_new] at used
      exact absurd rfl (rewrites.ne_of_mem_operands placed used)
    · rw [rewrites.operands_of_ne same] at used
      exact absurd used (rewrites.not_mem_operands placed upper)
  · rcases rewrites.child_cases held with ⟨_, same⟩ | there
    · exact same
    · exact rewrites.holder_eq_host placed there

/-- What the statement uses could be reached from the body before. -/
theorem transGen_of_below {lower : NodeId} (below : after.Below new lower) :
    Relation.TransGen before.Below host lower := by
  have from_host : ∀ {first}, first ∈ old → before.Below host first :=
    fun listed => .inr (rewrites.held_of_mem listed)
  rcases below with used | held
  · rw [rewrites.node_new] at used
    rcases rewrites.operands lower used with kept | ⟨first, listed, user, down, last⟩ | ⟨listed, _⟩
    · rcases rewrites.place with ⟨fresh, _⟩ | ⟨listed, _⟩
      · rw [fresh, node_of_le (Nat.le_refl _)] at kept
        exact absurd kept List.not_mem_nil
      · exact .tail (.single (from_host listed)) (.inl kept)
    · exact Relation.TransGen.tail' (.head (from_host listed) down) (.inl last)
    · exact .single (from_host listed)
  · rw [children_eq, rewrites.node_new, Node.statements_eq_nil rewrites.bare] at held
    exact absurd held List.not_mem_nil

theorem transGen_of_ne (placed : before.IsPlaced (some host)) {upper lower : NodeId}
    (higher : upper ≠ new) (chain : Relation.TransGen after.Below upper lower) :
    (lower ≠ new → Relation.TransGen before.Below upper lower) ∧
      (lower = new → Relation.ReflTransGen before.Below upper host) :=
  transGen_of_detour rewrites.host_ne_new
    (fun first second below => .single (rewrites.below_of_ne first second below))
    (rewrites.eq_host_of_below placed) (fun _ below => rewrites.transGen_of_below below) higher chain

theorem isAcyclic (placed : before.IsPlaced (some host)) : after.IsAcyclic := by
  intro id circle
  by_cases same : id = new
  · subst same
    -- A circle through the statement enters it from the body, which is thus on the circle too.
    obtain ⟨above, round, last⟩ := Relation.TransGen.tail'_iff.mp circle
    obtain rfl := rewrites.eq_host_of_below placed last
    have turned : Relation.TransGen after.Below above above := .head' last round
    exact placed.acyclic above
      ((rewrites.transGen_of_ne placed rewrites.host_ne_new turned).1 rewrites.host_ne_new)
  · exact placed.acyclic id ((rewrites.transGen_of_ne placed same circle).1 same)

theorem root_ne_new (placed : before.IsPlaced (some host)) : root ≠ new := by
  intro same
  simpa [same, rewrites.bare_before] using placed.rooted

/-- A body that can be reached afterwards is one that could be reached before. -/
theorem reaches_body (placed : before.IsPlaced (some host)) {id : NodeId}
    (reaches : after.Reaches root id) (owns : (after.node id).body?.isSome) :
    before.Reaches root id ∧ (before.node id).body?.isSome := by
  have other : id ≠ new := by
    rintro rfl
    simp [rewrites.node_new, rewrites.bare] at owns
  obtain ⟨statements, same⟩ := rewrites.exists_node_eq other
  refine ⟨?_, by simpa [same] using owns⟩
  rcases Relation.reflTransGen_iff_eq_or_transGen.mp reaches with rfl | chain
  · exact .refl
  · exact ((rewrites.transGen_of_ne placed (rewrites.root_ne_new placed) chain).1 other).to_reflTransGen

theorem isExpression_of_ne {id : NodeId} (other : id ≠ new) :
    (after.node id).isExpression = (before.node id).isExpression := by
  obtain ⟨statements, same⟩ := rewrites.exists_node_eq other
  rw [same, Node.isExpression_mapBody]

theorem body?_isSome_iff (id : NodeId) :
    (after.node id).body?.isSome ↔ (before.node id).body?.isSome := by
  by_cases same : id = new
  · rw [same, rewrites.node_new, rewrites.bare, rewrites.bare_before]
  · obtain ⟨statements, changed⟩ := rewrites.exists_node_eq same
    rw [changed, Node.body?_mapBody, Option.isSome_map]

theorem lt_of_below (placed : before.IsPlaced (some host)) {upper lower : NodeId}
    (below : after.Below upper lower) : lower < after.size := by
  have grown : before.size ≤ after.size := by
    rcases rewrites.place with ⟨_, size⟩ | ⟨_, size⟩ <;> omega
  by_cases same : lower = new
  · rcases rewrites.place with ⟨fresh, size⟩ | ⟨listed, size⟩
    · rw [same, fresh, size]
      exact Nat.lt_succ_self _
    · rw [same]
      exact Nat.lt_of_lt_of_le (placed.child_inside (rewrites.held_of_mem listed)) grown
  · have old : ∃ user, before.Below user lower := by
      by_cases through : upper = new
      · obtain ⟨user, _, last⟩ :=
          Relation.TransGen.tail'_iff.mp (rewrites.transGen_of_below (through ▸ below))
        exact ⟨user, last⟩
      · exact ⟨upper, rewrites.below_of_ne through same below⟩
    obtain ⟨user, last⟩ := old
    exact Nat.lt_of_lt_of_le (placed.inside last) grown

theorem nodup_children (placed : before.IsPlaced (some host)) (holder : NodeId) :
    (after.children holder).Nodup := by
  by_cases same : holder = host
  · have once := placed.once host
    rw [rewrites.held] at once
    rw [same, rewrites.children_host, List.nodup_middle, List.nodup_cons]
    refine ⟨rewrites.new_not_mem placed, once.sublist ?_⟩
    rw [List.append_assoc]
    exact (List.Sublist.refl _).append (List.sublist_append_right _ _)
  · rw [rewrites.children_of_ne same]
    exact placed.once holder

theorem isExpression_of_operand (placed : before.IsPlaced (some host)) {user operand holder : NodeId}
    (used : operand ∈ (after.node user).operands) (held : operand ∈ after.children holder) :
    (after.node operand).isExpression := by
  by_cases through : user = new
  · rw [through, rewrites.node_new] at used
    have other := rewrites.ne_of_mem_operands placed used
    rw [rewrites.isExpression_of_ne other]
    rcases rewrites.operand_cases used with ⟨_, before_used⟩ | ⟨_, expression⟩
    · rcases rewrites.child_cases held with ⟨same, _⟩ | there
      · exact absurd same other
      · exact placed.apart before_used there
    · exact expression
  · rw [rewrites.operands_of_ne through] at used
    have other : operand ≠ new := by
      rintro rfl
      exact rewrites.not_mem_operands placed user used
    rw [rewrites.isExpression_of_ne other]
    rcases rewrites.child_cases held with ⟨same, _⟩ | there
    · exact absurd same other
    · exact placed.apart used there

/-- Child statements link to their holder still, or they are in use. -/
theorem linked (placed : before.IsPlaced (some host)) {holder child : NodeId}
    (held : child ∈ after.children holder) : after.parent? child = some holder ∨
      (after.node child).isExpression ∧ ∃ user, after.parent? child = some user ∧
        ((after.node user).body? = none ∨ some host = some user ∧ child ∈ after.children user) := by
  have links := rewrites.parent? child
  by_cases same : child = new
  · have here : holder = host := by
      rcases rewrites.child_cases held with ⟨_, here⟩ | there
      · exact here
      · exact rewrites.holder_eq_host placed (same ▸ there)
    rw [if_pos same] at links
    exact .inl (links.trans (congrArg some here.symm))
  have there : child ∈ before.children holder :=
    (rewrites.child_cases held).resolve_left fun both => same both.1
  rw [if_neg same] at links
  rw [rewrites.isExpression_of_ne same]
  by_cases used : child ∈ statement.operands ∧ child ∉ (before.node new).operands
  · rw [if_pos used] at links
    refine .inr ⟨?_, new, links, .inl (by rw [rewrites.node_new, rewrites.bare])⟩
    rcases rewrites.operand_cases used.1 with ⟨user, below⟩ | ⟨_, expression⟩
    · exact placed.apart below there
    · exact expression
  rw [if_neg used] at links
  have kept : child ∉ old := by
    intro listed
    have plain := (rewrites.left_behind child listed same).resolve_right used
    have home := placed.home (rewrites.held_of_mem listed) plain
    have here : holder = host := Option.some.inj ((placed.home there plain).symm.trans home)
    rw [here, rewrites.children_host] at held
    exact rewrites.not_mem_old placed (by simpa [same] using held) listed
  rw [if_neg kept] at links
  rw [links]
  rcases placed.linked there with own | ⟨expression, user, linked, bare | ⟨is_host, standing⟩⟩
  · exact .inl own
  · refine .inr ⟨expression, user, linked, .inl ?_⟩
    have owns := mt (rewrites.body?_isSome_iff user).mp (by simp [bare])
    simpa using owns
  · obtain rfl := Option.some.inj is_host
    refine .inr ⟨expression, host, linked, .inr ⟨rfl, ?_⟩⟩
    rw [rewrites.held, List.mem_append, List.mem_append] at standing
    rw [rewrites.children_host, List.mem_append, List.mem_cons]
    tauto

theorem isPlaced (placed : before.IsPlaced (some host)) : after.IsPlaced (some host) where
  sized := rewrites.sized
  rooted := (rewrites.body?_isSome_iff root).mpr placed.rooted
  inside := rewrites.lt_of_below placed
  linked := rewrites.linked placed
  once := rewrites.nodup_children placed
  acyclic := rewrites.isAcyclic placed
  apart := rewrites.isExpression_of_operand placed

end Rewrites
end Rewrites

section Absorbs

variable {before after : ScriptTree} {host inner : NodeId}

namespace Absorbs

variable (absorbs : Absorbs host inner before after)

include absorbs

theorem listed : inner ∈ before.children host := by
  rw [absorbs.held]
  exact List.mem_singleton_self inner

theorem inner_ne_host (placed : before.IsPlaced (some host)) : inner ≠ host :=
  Ne.symm (placed.ne_of_below (.inr absorbs.listed))

theorem home (placed : before.IsPlaced (some host)) : before.parent? inner = some host :=
  placed.home absorbs.listed (Node.not_isExpression_of_isBlock absorbs.block)

/-- Every node changes at most its child statements. -/
theorem exists_node_eq (id : NodeId) :
    ∃ statements, after.node id = (before.node id).holding statements := by
  rw [absorbs.node]
  by_cases same : id = host
  · exact ⟨_, by rw [same, Function.update_self]⟩
  rw [Function.update_of_ne same]
  by_cases block : id = inner
  · exact ⟨_, by rw [block, Function.update_self]⟩
  · exact ⟨(before.node id).statements, by
      rw [Function.update_of_ne block, Node.holding_statements]⟩

theorem operands (id : NodeId) : (after.node id).operands = (before.node id).operands := by
  obtain ⟨statements, same⟩ := absorbs.exists_node_eq id
  rw [same, Node.operands_mapBody]

theorem body?_isSome_iff (id : NodeId) :
    (after.node id).body?.isSome ↔ (before.node id).body?.isSome := by
  obtain ⟨statements, same⟩ := absorbs.exists_node_eq id
  rw [same, Node.body?_mapBody, Option.isSome_map]

theorem isExpression (id : NodeId) :
    (after.node id).isExpression = (before.node id).isExpression := by
  obtain ⟨statements, same⟩ := absorbs.exists_node_eq id
  rw [same, Node.isExpression_mapBody]

theorem children_host : after.children host = before.children inner := by
  rw [children_eq, absorbs.node, Function.update_self,
    Node.statements_holding (Node.owns_of_mem_statements absorbs.listed)]

theorem children_inner (placed : before.IsPlaced (some host)) :
    after.children inner = before.remaining inner (before.children inner) := by
  rw [children_eq, absorbs.node, Function.update_of_ne (absorbs.inner_ne_host placed),
    Function.update_self, Node.statements_holding (Node.owns_of_isBlock absorbs.block)]

theorem children_of_ne {id : NodeId} (not_host : id ≠ host) (not_inner : id ≠ inner) :
    after.children id = before.children id := by
  rw [children_eq, absorbs.node, Function.update_of_ne not_host, Function.update_of_ne not_inner,
    children_eq]

/-- The body takes over the statements of the block, and no other body gains any. -/
theorem child_cases (placed : before.IsPlaced (some host)) {holder child : NodeId}
    (held : child ∈ after.children holder) :
    holder = host ∧ child ∈ before.children inner ∨
      holder ≠ host ∧ child ∈ before.children holder := by
  by_cases same : holder = host
  · rw [same, absorbs.children_host] at held
    exact .inl ⟨same, held⟩
  refine .inr ⟨same, ?_⟩
  by_cases block : holder = inner
  · rw [block, absorbs.children_inner placed] at held
    rw [block]
    exact (List.mem_filter.mp held).1
  · rwa [absorbs.children_of_ne same block] at held

theorem transGen_of_below (placed : before.IsPlaced (some host)) {upper lower : NodeId}
    (below : after.Below upper lower) : Relation.TransGen before.Below upper lower := by
  rcases below with used | held
  · exact .single (.inl (absorbs.operands upper ▸ used))
  · rcases absorbs.child_cases placed held with ⟨rfl, there⟩ | ⟨_, there⟩
    · exact .tail (.single (.inr absorbs.listed)) (.inr there)
    · exact .single (.inr there)

/-- A body that can be reached afterwards is one that could be reached before. -/
theorem reaches_body (placed : before.IsPlaced (some host)) {id : NodeId}
    (reaches : after.Reaches root id) (owns : (after.node id).body?.isSome) :
    before.Reaches root id ∧ (before.node id).body?.isSome := by
  refine ⟨?_, (absorbs.body?_isSome_iff id).mp owns⟩
  clear owns
  induction reaches with
  | refl => exact .refl
  | tail _ below induction =>
      exact induction.trans (absorbs.transGen_of_below placed below).to_reflTransGen

/-- Child statements link to their holder still, or they are in use. -/
theorem linked (placed : before.IsPlaced (some host)) {holder child : NodeId}
    (held : child ∈ after.children holder) : after.parent? child = some holder ∨
      (after.node child).isExpression ∧ ∃ user, after.parent? child = some user ∧
        ((after.node user).body? = none ∨ some host = some user ∧ child ∈ after.children user) := by
  have links := absorbs.parent? child
  rw [absorbs.isExpression]
  rcases absorbs.child_cases placed held with ⟨same, there⟩ | ⟨other, there⟩
  · rw [if_pos there] at links
    exact .inl (links.trans (congrArg some same.symm))
  by_cases moved : child ∈ before.children inner
  · rw [if_pos moved] at links
    refine .inr ⟨?_, host, links, .inr ⟨rfl, by rwa [absorbs.children_host]⟩⟩
    by_contra plain
    have plain : (before.node child).isExpression = false := by simpa using plain
    have here : holder = inner :=
      Option.some.inj ((placed.home there plain).symm.trans (placed.home moved plain))
    rw [here, absorbs.children_inner placed, remaining, List.mem_filter] at held
    simp [moved, placed.home moved plain] at held
  rw [if_neg moved] at links
  have not_inner : child ≠ inner := by
    rintro rfl
    have plain := Node.not_isExpression_of_isBlock absorbs.block
    exact other (Option.some.inj ((placed.home there plain).symm.trans (absorbs.home placed)))
  rw [if_neg not_inner] at links
  rw [links]
  rcases placed.linked there with own | ⟨expression, user, linked, bare | ⟨is_host, standing⟩⟩
  · exact .inl own
  · refine .inr ⟨expression, user, linked, .inl ?_⟩
    have owns := mt (absorbs.body?_isSome_iff user).mp (by simp [bare])
    simpa using owns
  · obtain rfl := Option.some.inj is_host
    rw [absorbs.held, List.mem_singleton] at standing
    exact absurd standing not_inner

theorem nodup_children (placed : before.IsPlaced (some host)) (holder : NodeId) :
    (after.children holder).Nodup := by
  by_cases same : holder = host
  · rw [same, absorbs.children_host]
    exact placed.once inner
  by_cases block : holder = inner
  · rw [block, absorbs.children_inner placed]
    exact (placed.once inner).filter _
  · rw [absorbs.children_of_ne same block]
    exact placed.once holder

theorem isPlaced (placed : before.IsPlaced (some host)) : after.IsPlaced (some host) where
  sized := by rw [absorbs.sized, absorbs.size, placed.sized]
  rooted := (absorbs.body?_isSome_iff root).mpr placed.rooted
  inside := by
    intro upper lower below
    obtain ⟨user, _, last⟩ :=
      Relation.TransGen.tail'_iff.mp (absorbs.transGen_of_below placed below)
    rw [absorbs.size]
    exact placed.inside last
  linked := absorbs.linked placed
  once := absorbs.nodup_children placed
  acyclic := fun id circle => placed.acyclic id
    (Relation.TransGen.closed (fun _ _ below => absorbs.transGen_of_below placed below) _ _ circle)
  apart := by
    intro user operand holder used held
    rw [absorbs.operands] at used
    rw [absorbs.isExpression]
    rcases absorbs.child_cases placed held with ⟨_, there⟩ | ⟨_, there⟩
    · exact placed.apart used there
    · exact placed.apart used there

end Absorbs
end Absorbs

end ScriptTree
end NwScript
