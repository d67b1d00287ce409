import NwScript.Proofs.ComponentOrder

/-!
# The invariant of the search for components

The stack of a search is cut into layers: the lowest node of a layer is still under exploration, and
the nodes above it were left with a low link that lies in the stack and not below that of the lowest
node.  When a node is left with its own number as low link, its layer is a component.
-/

namespace NwScript
namespace Digraph

variable {ε : Type}

namespace ComponentSearch

/-! ## What the operations of a search change -/

/-- Number of a node that was met. -/
def rank (search : ComponentSearch) (node : Nat) : Nat :=
  (search.index? node).getD 0

@[simp]
theorem index?_lower (search : ComponentSearch) (changed bound node : Nat) :
    (search.lower changed bound).index? node = search.index? node := rfl

@[simp]
theorem rank_lower (search : ComponentSearch) (changed bound node : Nat) :
    (search.lower changed bound).rank node = search.rank node := rfl

@[simp]
theorem holds_lower (search : ComponentSearch) (changed bound node : Nat) :
    (search.lower changed bound).holds node = search.holds node := rfl

theorem lowLink_lower_self {search : ComponentSearch} {node : Nat}
    (present : node < search.lowLinks.size) (bound : Nat) :
    (search.lower node bound).lowLink node = min (search.lowLink node) bound := by
  simp only [lowLink, lower, Array.getD_eq_getD_getElem?, Array.getElem?_modify, if_pos]
  simp [present]

theorem lowLink_lower_of_ne {search : ComponentSearch} {changed node : Nat}
    (other : node ≠ changed) (bound : Nat) :
    (search.lower changed bound).lowLink node = search.lowLink node := by
  simp [lowLink, lower, Array.getD_eq_getD_getElem?, Array.getElem?_modify, other.symm]

theorem lowLink_lower_le (search : ComponentSearch) (changed bound node : Nat) :
    (search.lower changed bound).lowLink node ≤ search.lowLink node := by
  simp only [lowLink, lower, Array.getD_eq_getD_getElem?, Array.getElem?_modify]
  split
  · cases search.lowLinks[node]? <;> simp [Nat.min_le_left]
  · exact Nat.le_refl _

theorem index?_enter_self {graph : Digraph ε} {search : ComponentSearch} {node : Nat}
    (present : node < search.indices.size) :
    (search.enter graph node).index? node = some search.met := by
  simp [index?, enter, present]

theorem index?_enter_of_ne {graph : Digraph ε} {search : ComponentSearch} {entered node : Nat}
    (other : node ≠ entered) :
    (search.enter graph entered).index? node = search.index? node := by
  simp [index?, enter, other.symm]

theorem lowLink_enter_self {graph : Digraph ε} {search : ComponentSearch} {node : Nat}
    (present : node < search.lowLinks.size) :
    (search.enter graph node).lowLink node = search.met := by
  simp [lowLink, enter, Array.getD_eq_getD_getElem?, present]

theorem lowLink_enter_of_ne {graph : Digraph ε} {search : ComponentSearch} {entered node : Nat}
    (other : node ≠ entered) :
    (search.enter graph entered).lowLink node = search.lowLink node := by
  simp [lowLink, enter, Array.getD_eq_getD_getElem?, other.symm]

theorem holds_enter_self {graph : Digraph ε} {search : ComponentSearch} {node : Nat}
    (present : node < search.onStack.size) : (search.enter graph node).holds node = true := by
  simp [holds, enter, Array.getD_eq_getD_getElem?, present]

theorem holds_enter_of_ne {graph : Digraph ε} {search : ComponentSearch} {entered node : Nat}
    (other : node ≠ entered) : (search.enter graph entered).holds node = search.holds node := by
  simp [holds, enter, Array.getD_eq_getD_getElem?, other.symm]

theorem popThrough_append {node : Nat} {left rest : List Nat} (fresh : node ∉ left) :
    popThrough node (left ++ node :: rest) = (left ++ [node], rest) := by
  induction left with
  | nil => simp [popThrough]
  | cons top left induction =>
      simp only [List.mem_cons, not_or] at fresh
      simp [popThrough, Ne.symm fresh.1, induction fresh.2]

theorem size_unmark (members : List Nat) (onStack : Array Bool) :
    (members.foldl (fun onStack member => onStack.setIfInBounds member false) onStack).size =
      onStack.size := by
  induction members generalizing onStack with
  | nil => rfl
  | cons member members induction => rw [List.foldl_cons, induction, Array.size_setIfInBounds]

/-- Taking nodes off the stack marks these and no others. -/
theorem getD_unmark (members : List Nat) (onStack : Array Bool) (node : Nat) :
    (members.foldl (fun onStack member => onStack.setIfInBounds member false) onStack).getD node
      false = (onStack.getD node false && decide (node ∉ members)) := by
  induction members generalizing onStack with
  | nil => simp
  | cons member members induction =>
      rw [List.foldl_cons, induction]
      by_cases same : member = node
      · subst same
        by_cases inside : member < onStack.size <;>
          simp [Array.getD_eq_getD_getElem?, inside]
      · simp [Array.getD_eq_getD_getElem?, same, Ne.symm same]

/-! ## The invariant -/

/-- A stack cut into layers, each with its lowest node under exploration.  The nodes above it have
low links that lie below themselves but not below the low link of the lowest node. -/
inductive Layered (search : ComponentSearch) : List Nat → List Nat → Prop
  | nil : Layered search [] []
  | cons {node : Nat} {left explored rest : List Nat}
      (links : ∀ member ∈ left, search.lowLink node ≤ search.lowLink member ∧
        search.lowLink member < search.rank member)
      (below : Layered search explored rest) :
      Layered search (node :: explored) (left ++ node :: rest)

theorem Layered.push {search : ComponentSearch} {explored stack : List Nat}
    (layered : Layered search explored stack) (node : Nat) :
    Layered search (node :: explored) (node :: stack) :=
  @Layered.cons search node [] explored stack (by simp) layered

/-- Layers depend on the numbers and low links of the nodes on the stack alone. -/
theorem Layered.congr {search other : ComponentSearch} {explored stack : List Nat}
    (layered : Layered search explored stack)
    (ranks : ∀ node ∈ stack, other.rank node = search.rank node)
    (links : ∀ node ∈ stack, other.lowLink node = search.lowLink node) :
    Layered other explored stack := by
  induction layered with
  | nil => exact .nil
  | @cons node left explored rest bounds below induction =>
      refine .cons (fun member inside => ?_)
        (induction (fun node inside => ranks node (by simp [inside]))
          (fun node inside => links node (by simp [inside])))
      rw [links node (by simp), links member (by simp [inside]), ranks member (by simp [inside])]
      exact bounds member inside

theorem Layered.subset {search : ComponentSearch} {explored stack : List Nat}
    (layered : Layered search explored stack) : ∀ node ∈ explored, node ∈ stack := by
  induction layered with
  | nil => simp
  | cons links below induction =>
      intro node inside
      rcases List.mem_cons.mp inside with rfl | inside
      · simp
      · simp [induction node inside]

/-- An edge of a node on the stack is still to be followed, or it was followed: to a complete
component, or to a node of the stack that bounds the low link. -/
def IsFollowed (search : ComponentSearch) (source target : Nat) : Prop :=
  (∃ targets, (source, targets) ∈ search.frames ∧ target ∈ targets) ∨
    target ∈ search.complete.flatten ∨
    target ∈ search.stack ∧ search.lowLink source ≤ search.rank target

/-- What holds of a search apart from the edges that it has followed. -/
structure Consistent (graph : Digraph ε) (search : ComponentSearch) : Prop where
  /-- There is an entry for each node. -/
  indices_size : search.indices.size = graph.nodeCount
  /-- There is a low link for each node. -/
  lowLinks_size : search.lowLinks.size = graph.nodeCount
  /-- There is a mark for each node. -/
  onStack_size : search.onStack.size = graph.nodeCount
  /-- The nodes met are those on the stack and in complete components. -/
  known : ∀ node, search.index? node ≠ none ↔
    node ∈ search.stack ∨ node ∈ search.complete.flatten
  /-- No node is on the stack or in complete components twice. -/
  nodup : (search.stack ++ search.complete.flatten).Nodup
  /-- The marks tell which nodes are on the stack. -/
  holds_iff : ∀ node, search.holds node = true ↔ node ∈ search.stack
  /-- Numbers count the nodes met. -/
  rank_lt : ∀ node ∈ search.stack, search.rank node < search.met
  /-- The stack is in the order of discovery. -/
  sorted : search.stack.Pairwise fun upper lower => search.rank lower < search.rank upper
  /-- The nodes under exploration divide the stack into layers. -/
  layered : Layered search (search.frames.map Prod.fst) search.stack
  /-- Only edges of a node are followed from it. -/
  edges : ∀ node targets, (node, targets) ∈ search.frames → ∀ target ∈ targets,
    graph.Edge node target
  /-- A low link is at most the number of its node. -/
  lowLink_le : ∀ node ∈ search.stack, search.lowLink node ≤ search.rank node
  /-- A low link is the number of a node on the stack that can be reached. -/
  witness : ∀ node ∈ search.stack, ∃ reached ∈ search.stack,
    search.rank reached = search.lowLink node ∧ graph.Reaches node reached
  /-- A node under exploration reaches all nodes above it. -/
  descends : ∀ node ∈ search.frames.map Prod.fst, ∀ upper ∈ search.stack,
    search.rank node ≤ search.rank upper → graph.Reaches node upper
  /-- Complete components are components. -/
  settled : Settled graph search.complete

/-- What holds of a search between steps. -/
structure Invariant (graph : Digraph ε) (search : ComponentSearch) : Prop
    extends Consistent graph search where
  /-- No edge of a node on the stack is lost. -/
  followed : ∀ source ∈ search.stack, ∀ target, graph.Edge source target →
    search.IsFollowed source target

theorem invariant_start (graph : Digraph ε) :
    Invariant graph (start graph.nodeCount) where
  indices_size := by simp [start]
  lowLinks_size := by simp [start]
  onStack_size := by simp [start]
  known node := by
    simp [start, index?, Array.getElem?_replicate]
    split <;> simp
  nodup := by simp [start]
  holds_iff node := by
    simp only [start, holds, Array.getD_eq_getD_getElem?, Array.getElem?_replicate]
    split <;> simp
  rank_lt := by simp [start]
  sorted := by simp [start]
  layered := .nil
  edges := by simp [start]
  lowLink_le := by simp [start]
  witness := by simp [start]
  descends := by simp [start]
  settled := trivial
  followed := by simp [start]

variable {graph : Digraph ε} {search : ComponentSearch}

theorem Consistent.not_known (consistent : Consistent graph search) {node : Nat}
    (unknown : search.index? node = none) :
    node ∉ search.stack ∧ node ∉ search.complete.flatten := by
  have reading := consistent.known node
  simp only [unknown, ne_eq, not_true_eq_false, false_iff, not_or] at reading
  exact reading

theorem Consistent.inside (consistent : Consistent graph search) {node : Nat}
    (on : node ∈ search.stack) : node < graph.nodeCount := by
  by_contra outside
  rw [← consistent.indices_size] at outside
  have met := (consistent.known node).mpr (.inl on)
  simp [index?, Array.getElem?_eq_none (Nat.not_lt.mp outside)] at met

/-- The layer of the innermost node under exploration: the nodes above it and the nodes below. -/
structure TopLayer (search : ComponentSearch) (node : Nat) (outer left rest : List Nat) :
    Prop where
  /-- The layer is uppermost. -/
  stack : search.stack = left ++ node :: rest
  /-- The nodes above are tied to the node by their low links. -/
  links : ∀ member ∈ left, search.lowLink node ≤ search.lowLink member ∧
    search.lowLink member < search.rank member
  /-- The nodes below are layers too. -/
  below : Layered search outer rest
  /-- The node is not above itself. -/
  fresh : node ∉ left
  /-- The nodes above were met later. -/
  above_lt : ∀ member ∈ left, search.rank node < search.rank member
  /-- The nodes below were met before. -/
  lt_below : ∀ member ∈ rest, search.rank member < search.rank node

theorem Consistent.topLayer (consistent : Consistent graph search) {node : Nat}
    {targets : List Nat} {outer : List (Nat × List Nat)}
    (frames : search.frames = (node, targets) :: outer) :
    ∃ left rest, TopLayer search node (outer.map Prod.fst) left rest := by
  have layered := consistent.layered
  rw [frames, List.map_cons] at layered
  generalize stack : search.stack = whole at layered
  cases layered with
  | @cons _ left _ rest links below =>
      have sorted := consistent.sorted
      rw [stack, List.pairwise_append, List.pairwise_cons] at sorted
      obtain ⟨_, ⟨lower, _⟩, upper⟩ := sorted
      have above : ∀ member ∈ left, search.rank node < search.rank member :=
        fun member inLeft => upper member inLeft node List.mem_cons_self
      exact ⟨left, rest, stack, links, below, fun inLeft => Nat.lt_irrefl _ (above node inLeft),
        above, lower⟩

theorem TopLayer.mem_stack {node : Nat} {outer left rest : List Nat}
    (layer : TopLayer search node outer left rest) {member : Nat} :
    member ∈ search.stack ↔ member ∈ left ++ [node] ∨ member ∈ rest := by
  rw [layer.stack]
  simp [or_assoc]

/-- The nodes of the stack that were not met before the innermost node are those of its layer. -/
theorem TopLayer.mem_layer {node : Nat} {outer left rest : List Nat}
    (layer : TopLayer search node outer left rest) {member : Nat} (on : member ∈ search.stack) :
    member ∈ left ++ [node] ↔ search.rank node ≤ search.rank member := by
  constructor
  · intro inLayer
    rcases List.mem_append.mp inLayer with inLeft | same
    · exact Nat.le_of_lt (layer.above_lt member inLeft)
    · exact Nat.le_of_eq (congrArg search.rank (List.mem_singleton.mp same).symm)
  · intro above
    rcases layer.mem_stack.mp on with inLayer | inRest
    · exact inLayer
    · exact absurd (layer.lt_below member inRest) (Nat.not_lt.mpr above)

theorem Consistent.reaches_innermost (consistent : Consistent graph search) {node : Nat}
    {targets : List Nat} {outer : List (Nat × List Nat)}
    (frames : search.frames = (node, targets) :: outer) :
    ∀ parent ∈ search.frames.map Prod.fst, graph.Reaches parent node := by
  obtain ⟨left, rest, layer⟩ := consistent.topLayer frames
  intro parent listed
  refine consistent.descends parent listed node (layer.mem_stack.mpr (by simp)) ?_
  rw [frames] at listed
  rcases List.mem_cons.mp listed with rfl | deeper
  · exact Nat.le_refl _
  · exact Nat.le_of_lt (layer.lt_below parent (layer.below.subset parent deeper))

/-! ## Meeting a node -/

theorem Consistent.ne_of_unknown (consistent : Consistent graph search) {node member : Nat}
    (unknown : search.index? node = none) (on : member ∈ search.stack) : member ≠ node :=
  fun same => (consistent.not_known unknown).1 (same ▸ on)

theorem Consistent.index?_enter_self (consistent : Consistent graph search) {node : Nat}
    (inside : node < graph.nodeCount) :
    (search.enter graph node).index? node = some search.met :=
  ComponentSearch.index?_enter_self (consistent.indices_size ▸ inside)

theorem Consistent.rank_enter_self (consistent : Consistent graph search) {node : Nat}
    (inside : node < graph.nodeCount) : (search.enter graph node).rank node = search.met := by
  simp [rank, consistent.index?_enter_self inside]

theorem Consistent.rank_enter (consistent : Consistent graph search) {node member : Nat}
    (unknown : search.index? node = none) (on : member ∈ search.stack) :
    (search.enter graph node).rank member = search.rank member := by
  simp [rank, index?_enter_of_ne (consistent.ne_of_unknown unknown on)]

theorem Consistent.lowLink_enter_self (consistent : Consistent graph search) {node : Nat}
    (inside : node < graph.nodeCount) : (search.enter graph node).lowLink node = search.met :=
  ComponentSearch.lowLink_enter_self (consistent.lowLinks_size ▸ inside)

theorem Consistent.lowLink_enter (consistent : Consistent graph search) {node member : Nat}
    (unknown : search.index? node = none) (on : member ∈ search.stack) :
    (search.enter graph node).lowLink member = search.lowLink member :=
  lowLink_enter_of_ne (consistent.ne_of_unknown unknown on)

theorem Consistent.known_enter (consistent : Consistent graph search) {node : Nat}
    (inside : node < graph.nodeCount) (member : Nat) :
    (search.enter graph node).index? member ≠ none ↔
      member ∈ node :: search.stack ∨ member ∈ search.complete.flatten := by
  by_cases same : member = node
  · subst same
    simp [consistent.index?_enter_self inside]
  · rw [index?_enter_of_ne same, consistent.known, List.mem_cons]
    simp [same]

theorem Consistent.holds_enter (consistent : Consistent graph search) {node : Nat}
    (inside : node < graph.nodeCount) (member : Nat) :
    (search.enter graph node).holds member = true ↔ member ∈ node :: search.stack := by
  by_cases same : member = node
  · subst same
    simp [holds_enter_self (consistent.onStack_size ▸ inside)]
  · rw [holds_enter_of_ne same, consistent.holds_iff, List.mem_cons]
    simp [same]

/-- A node that is met is above all others. -/
theorem Consistent.rank_lt_enter (consistent : Consistent graph search) {node member : Nat}
    (unknown : search.index? node = none) (inside : node < graph.nodeCount)
    (on : member ∈ search.stack) :
    (search.enter graph node).rank member < (search.enter graph node).rank node := by
  rw [consistent.rank_enter unknown on, consistent.rank_enter_self inside]
  exact consistent.rank_lt member on

theorem Consistent.sorted_enter (consistent : Consistent graph search) {node : Nat}
    (unknown : search.index? node = none) (inside : node < graph.nodeCount) :
    (node :: search.stack).Pairwise fun upper lower =>
      (search.enter graph node).rank lower < (search.enter graph node).rank upper := by
  refine .cons (fun lower on => consistent.rank_lt_enter unknown inside on) ?_
  refine consistent.sorted.imp_of_mem fun upperOn lowerOn less => ?_
  rw [consistent.rank_enter unknown upperOn, consistent.rank_enter unknown lowerOn]
  exact less

theorem Consistent.witness_enter (consistent : Consistent graph search) {node : Nat}
    (unknown : search.index? node = none) (inside : node < graph.nodeCount) :
    ∀ member ∈ node :: search.stack, ∃ reached ∈ node :: search.stack,
      (search.enter graph node).rank reached = (search.enter graph node).lowLink member ∧
        graph.Reaches member reached := by
  intro member on
  rcases List.mem_cons.mp on with rfl | old
  · refine ⟨member, on, ?_, .refl⟩
    rw [consistent.rank_enter_self inside, consistent.lowLink_enter_self inside]
  · obtain ⟨reached, reachedOn, equal, path⟩ := consistent.witness member old
    refine ⟨reached, List.mem_cons_of_mem _ reachedOn, ?_, path⟩
    rw [consistent.rank_enter unknown reachedOn, consistent.lowLink_enter unknown old, equal]

theorem Consistent.descends_enter (consistent : Consistent graph search) {node : Nat}
    (unknown : search.index? node = none) (inside : node < graph.nodeCount)
    (reached : ∀ parent ∈ search.frames.map Prod.fst, graph.Reaches parent node) :
    ∀ parent ∈ node :: search.frames.map Prod.fst, ∀ upper ∈ node :: search.stack,
      (search.enter graph node).rank parent ≤ (search.enter graph node).rank upper →
        graph.Reaches parent upper := by
  intro parent listed upper on above
  rcases List.mem_cons.mp listed with rfl | oldParent
  · rcases List.mem_cons.mp on with rfl | old
    · exact .refl
    · exact absurd (consistent.rank_lt_enter unknown inside old) (Nat.not_lt.mpr above)
  · rcases List.mem_cons.mp on with rfl | old
    · exact reached parent oldParent
    · rw [consistent.rank_enter unknown (consistent.layered.subset parent oldParent),
        consistent.rank_enter unknown old] at above
      exact consistent.descends parent oldParent upper old above

/-- Meeting a node that every node under exploration reaches keeps a search consistent. -/
theorem Consistent.enter (consistent : Consistent graph search) {node : Nat}
    (unknown : search.index? node = none) (inside : node < graph.nodeCount)
    (reached : ∀ parent ∈ search.frames.map Prod.fst, graph.Reaches parent node) :
    Consistent graph (search.enter graph node) where
  indices_size := by simpa [ComponentSearch.enter] using consistent.indices_size
  lowLinks_size := by simpa [ComponentSearch.enter] using consistent.lowLinks_size
  onStack_size := by simpa [ComponentSearch.enter] using consistent.onStack_size
  known := consistent.known_enter inside
  nodup := by
    obtain ⟨offStack, incomplete⟩ := consistent.not_known unknown
    have fresh : node ∉ search.stack ++ search.complete.flatten := by
      simp only [List.mem_append, not_or]
      exact ⟨offStack, incomplete⟩
    exact List.nodup_cons.mpr ⟨fresh, consistent.nodup⟩
  holds_iff := consistent.holds_enter inside
  rank_lt member on := by
    rcases List.mem_cons.mp on with rfl | old
    · rw [consistent.rank_enter_self inside]
      exact Nat.lt_succ_self _
    · rw [consistent.rank_enter unknown old]
      exact Nat.lt_succ_of_lt (consistent.rank_lt member old)
  sorted := consistent.sorted_enter unknown inside
  layered := (consistent.layered.congr (fun _ on => consistent.rank_enter unknown on)
    (fun _ on => consistent.lowLink_enter unknown on)).push node
  edges source targets listed target pending := by
    rcases List.mem_cons.mp listed with new | old
    · cases new
      exact List.mem_reverse.mp pending
    · exact consistent.edges source targets old target pending
  lowLink_le member on := by
    rcases List.mem_cons.mp on with rfl | old
    · exact Nat.le_of_eq ((consistent.lowLink_enter_self inside).trans
        (consistent.rank_enter_self inside).symm)
    · rw [consistent.rank_enter unknown old, consistent.lowLink_enter unknown old]
      exact consistent.lowLink_le member old
  witness := consistent.witness_enter unknown inside
  descends := consistent.descends_enter unknown inside reached
  settled := consistent.settled

/-- An edge that was not lost is not lost by meeting a node, and an edge to that node is found. -/
theorem Consistent.isFollowed_enter (consistent : Consistent graph search)
    {node source target : Nat} (unknown : search.index? node = none)
    (inside : node < graph.nodeCount) (on : source ∈ search.stack)
    (followed : search.IsFollowed source target ∨ target = node) :
    (search.enter graph node).IsFollowed source target := by
  rcases followed with (⟨targets, listed, pending⟩ | done | ⟨targetOn, low⟩) | rfl
  · exact .inl ⟨targets, List.mem_cons_of_mem _ listed, pending⟩
  · exact .inr (.inl done)
  · refine .inr (.inr ⟨List.mem_cons_of_mem _ targetOn, ?_⟩)
    rw [consistent.lowLink_enter unknown on, consistent.rank_enter unknown targetOn]
    exact low
  · refine .inr (.inr ⟨List.mem_cons_self, ?_⟩)
    rw [consistent.lowLink_enter unknown on, consistent.rank_enter_self inside]
    exact Nat.le_of_lt (Nat.lt_of_le_of_lt (consistent.lowLink_le source on)
      (consistent.rank_lt source on))

/-- Meeting a node keeps the invariant, if only edges to that node were lost before. -/
theorem Consistent.invariant_enter (consistent : Consistent graph search) {node : Nat}
    (unknown : search.index? node = none) (inside : node < graph.nodeCount)
    (reached : ∀ parent ∈ search.frames.map Prod.fst, graph.Reaches parent node)
    (followed : ∀ source ∈ search.stack, ∀ target, graph.Edge source target →
      search.IsFollowed source target ∨ target = node) :
    Invariant graph (search.enter graph node) where
  toConsistent := consistent.enter unknown inside reached
  followed source on target edge := by
    rcases List.mem_cons.mp on with rfl | old
    · exact .inl ⟨_, List.mem_cons_self, List.mem_reverse.mpr edge⟩
    · exact consistent.isFollowed_enter unknown inside old (followed source old target edge)

/-! ## Following an edge to a node that was met -/

/-- Lowering the low link of nodes under exploration keeps the layers. -/
theorem Layered.lower {explored stack : List Nat} (layered : Layered search explored stack)
    (nodup : stack.Nodup) {node : Nat} (listed : node ∈ explored) (bound : Nat) :
    Layered (search.lower node bound) explored stack := by
  induction layered with
  | nil => exact .nil
  | @cons lowest left explored rest links below induction =>
      obtain ⟨_, tailNodup, apart⟩ := List.nodup_append.mp nodup
      obtain ⟨offRest, restNodup⟩ := List.nodup_cons.mp tailNodup
      have offLeft : node ∉ left := by
        intro inLeft
        rcases List.mem_cons.mp listed with rfl | deeper
        · exact apart node inLeft node (by simp) rfl
        · exact apart node inLeft node (by simp [below.subset node deeper]) rfl
      refine .cons (fun member inLeft => ?_) ?_
      · have other : member ≠ node := fun same => offLeft (same ▸ inLeft)
        rw [lowLink_lower_of_ne other]
        exact ⟨Nat.le_trans (lowLink_lower_le ..) (links member inLeft).1,
          (links member inLeft).2⟩
      · rcases List.mem_cons.mp listed with rfl | deeper
        · refine below.congr (fun _ _ => rfl) (fun member inRest => ?_)
          have other : member ≠ node := fun same => offRest (same ▸ inRest)
          exact lowLink_lower_of_ne other bound
        · exact induction restNodup deeper

theorem Consistent.lowLink_lower_self (consistent : Consistent graph search) {node : Nat}
    (on : node ∈ search.stack) (bound : Nat) :
    (search.lower node bound).lowLink node = min (search.lowLink node) bound :=
  ComponentSearch.lowLink_lower_self (consistent.lowLinks_size ▸ consistent.inside on) bound

theorem Consistent.lowLink_lower_le_bound (consistent : Consistent graph search) {node : Nat}
    (on : node ∈ search.stack) (bound : Nat) :
    (search.lower node bound).lowLink node ≤ bound := by
  rw [consistent.lowLink_lower_self on]
  exact Nat.min_le_right ..

/-- A node under exploration may take the number of a node on the stack that it reaches into account
in its low link. -/
theorem Consistent.lower (consistent : Consistent graph search) {node reached : Nat}
    (listed : node ∈ search.frames.map Prod.fst) (onStack : reached ∈ search.stack)
    (path : graph.Reaches node reached) :
    Consistent graph (search.lower node (search.rank reached)) where
  indices_size := consistent.indices_size
  lowLinks_size := by simpa [ComponentSearch.lower] using consistent.lowLinks_size
  onStack_size := consistent.onStack_size
  known := consistent.known
  nodup := consistent.nodup
  holds_iff := consistent.holds_iff
  rank_lt := consistent.rank_lt
  sorted := consistent.sorted
  layered := consistent.layered.lower (List.nodup_append.mp consistent.nodup).1 listed _
  edges := consistent.edges
  lowLink_le member on := Nat.le_trans (lowLink_lower_le ..) (consistent.lowLink_le member on)
  witness member on := by
    obtain ⟨lowest, lowestOn, equal, lowestPath⟩ := consistent.witness member on
    by_cases same : member = node
    · subst same
      rw [consistent.lowLink_lower_self on]
      rcases Nat.le_total (search.lowLink member) (search.rank reached) with less | more
      · exact ⟨lowest, lowestOn, by rw [Nat.min_eq_left less]; exact equal, lowestPath⟩
      · exact ⟨reached, onStack, by rw [Nat.min_eq_right more]; rfl, path⟩
    · rw [lowLink_lower_of_ne same]
      exact ⟨lowest, lowestOn, equal, lowestPath⟩
  descends := consistent.descends
  settled := consistent.settled

theorem IsFollowed.lower {source target : Nat} (followed : search.IsFollowed source target)
    (node bound : Nat) : (search.lower node bound).IsFollowed source target := by
  rcases followed with pending | done | ⟨on, low⟩
  · exact .inl pending
  · exact .inr (.inl done)
  · exact .inr (.inr ⟨on, Nat.le_trans (lowLink_lower_le ..) low⟩)

theorem Invariant.lower (invariant : Invariant graph search) {node reached : Nat}
    (listed : node ∈ search.frames.map Prod.fst) (onStack : reached ∈ search.stack)
    (path : graph.Reaches node reached) :
    Invariant graph (search.lower node (search.rank reached)) where
  toConsistent := invariant.toConsistent.lower listed onStack path
  followed source on target edge := (invariant.followed source on target edge).lower ..

/-- Other frames are as good, if they explore nodes that were explored and divide the stack. -/
theorem Consistent.withFrames (consistent : Consistent graph search)
    {frames : List (Nat × List Nat)}
    (layered : Layered search (frames.map Prod.fst) search.stack)
    (explored : ∀ node ∈ frames.map Prod.fst, node ∈ search.frames.map Prod.fst)
    (edges : ∀ node targets, (node, targets) ∈ frames → ∀ target ∈ targets,
      graph.Edge node target) :
    Consistent graph { search with frames } where
  indices_size := consistent.indices_size
  lowLinks_size := consistent.lowLinks_size
  onStack_size := consistent.onStack_size
  known := consistent.known
  nodup := consistent.nodup
  holds_iff := consistent.holds_iff
  rank_lt := consistent.rank_lt
  sorted := consistent.sorted
  layered := layered.congr (fun _ _ => rfl) (fun _ _ => rfl)
  edges := edges
  lowLink_le := consistent.lowLink_le
  witness := consistent.witness
  descends node listed := consistent.descends node (explored node listed)
  settled := consistent.settled

theorem Consistent.dropEdge (consistent : Consistent graph search) {node target : Nat}
    {targets : List Nat} {outer : List (Nat × List Nat)}
    (frames : search.frames = (node, target :: targets) :: outer) :
    Consistent graph { search with frames := (node, targets) :: outer } := by
  have names : ((node, targets) :: outer).map Prod.fst = search.frames.map Prod.fst := by
    rw [frames]
    rfl
  refine consistent.withFrames (names ▸ consistent.layered) (fun _ listed => names ▸ listed) ?_
  intro source others listed reached pending
  rcases List.mem_cons.mp listed with new | old
  · cases new
    exact consistent.edges node (target :: targets) (frames ▸ List.mem_cons_self) reached
      (List.mem_cons_of_mem _ pending)
  · exact consistent.edges source others (frames ▸ List.mem_cons_of_mem _ old) reached pending

theorem Invariant.followed_dropEdge (invariant : Invariant graph search) {node target : Nat}
    {targets : List Nat} {outer : List (Nat × List Nat)}
    (frames : search.frames = (node, target :: targets) :: outer) :
    ∀ source ∈ search.stack, ∀ reached, graph.Edge source reached →
      { search with frames := (node, targets) :: outer }.IsFollowed source reached ∨
        source = node ∧ reached = target := by
  intro source on reached edge
  rcases invariant.followed source on reached edge with ⟨others, listed, pending⟩ | done | low
  · rw [frames] at listed
    rcases List.mem_cons.mp listed with new | old
    · cases new
      rcases List.mem_cons.mp pending with rfl | later
      · exact .inr ⟨rfl, rfl⟩
      · exact .inl (.inl ⟨targets, List.mem_cons_self, later⟩)
    · exact .inl (.inl ⟨others, List.mem_cons_of_mem _ old, pending⟩)
  · exact .inl (.inr (.inl done))
  · exact .inl (.inr (.inr low))

/-- Following an edge keeps the invariant. -/
theorem Invariant.follow (invariant : Invariant graph search) (proper : graph.IsProper)
    {node target : Nat} {targets : List Nat} {outer : List (Nat × List Nat)}
    (frames : search.frames = (node, target :: targets) :: outer) :
    Invariant graph
      ({ search with frames := (node, targets) :: outer }.follow graph node target) := by
  have consistent := invariant.toConsistent.dropEdge frames
  have lost := invariant.followed_dropEdge frames
  have edge : graph.Edge node target :=
    invariant.edges node _ (frames ▸ List.mem_cons_self) target List.mem_cons_self
  have inside : target < search.indices.size :=
    invariant.indices_size ▸ proper node target edge
  have explored : ∀ parent ∈ node :: outer.map Prod.fst, graph.Reaches parent target := by
    intro parent listed
    exact (invariant.reaches_innermost frames parent (by simpa [frames] using listed)).tail edge
  unfold ComponentSearch.follow
  split
  · rename_i unknown
    refine consistent.invariant_enter (by simpa [index?] using congrArg Option.join unknown)
      (invariant.indices_size ▸ inside) explored (fun source on reached path => ?_)
    exact (lost source on reached path).imp id And.right
  · rename_i index found
    have known : search.index? target = some index := congrArg Option.join found
    have rank : search.rank target = index := by simp [ComponentSearch.rank, known]
    split
    · rename_i holds
      have on := (invariant.holds_iff target).mp holds
      rw [← rank]
      refine ⟨consistent.lower (by simp) on (explored node List.mem_cons_self), ?_⟩
      intro source sourceOn reached path
      rcases lost source sourceOn reached path with followed | ⟨rfl, rfl⟩
      · exact followed.lower ..
      · exact .inr (.inr ⟨on, consistent.lowLink_lower_le_bound sourceOn _⟩)
    · rename_i offStack
      refine ⟨consistent, fun source sourceOn reached path => ?_⟩
      rcases lost source sourceOn reached path with followed | ⟨rfl, rfl⟩
      · exact followed
      · have somewhere := (invariant.known reached).mp (by simp [known])
        exact .inr (.inl (somewhere.resolve_left fun on =>
          offStack ((invariant.holds_iff reached).mpr on)))
  · rename_i missing
    exact absurd inside (Nat.not_lt.mpr (Array.getElem?_eq_none_iff.mp missing))

/-! ## Leaving a node -/

/-- A node whose edges were all followed joins the layer below it, once the lowest node of that layer
knows its low link. -/
theorem Invariant.retire (invariant : Invariant graph search) {node parent : Nat}
    {targets : List Nat} {outer : List (Nat × List Nat)}
    (frames : search.frames = (node, []) :: (parent, targets) :: outer)
    (inner : search.lowLink node ≠ search.rank node)
    (told : search.lowLink parent ≤ search.lowLink node) :
    Invariant graph { search with frames := (parent, targets) :: outer } := by
  obtain ⟨left, rest, layer⟩ := invariant.topLayer frames
  have nodeOn : node ∈ search.stack := layer.mem_stack.mpr (by simp)
  have below := layer.below
  generalize stack : rest = under at below
  rw [List.map_cons] at below
  cases below with
  | @cons _ wider _ lowest links deeper =>
      have merged : search.stack = (left ++ node :: wider) ++ parent :: lowest := by
        rw [layer.stack, stack]
        simp
      refine ⟨invariant.toConsistent.withFrames ?_ ?_ ?_, ?_⟩
      · rw [merged]
        refine .cons (fun member inLayer => ?_) deeper
        rcases List.mem_append.mp inLayer with inLeft | inRest
        · exact ⟨Nat.le_trans told (layer.links member inLeft).1, (layer.links member inLeft).2⟩
        · rcases List.mem_cons.mp inRest with rfl | inWider
          · exact ⟨told, Nat.lt_of_le_of_ne (invariant.lowLink_le member nodeOn) inner⟩
          · exact links member inWider
      · intro listed inOuter
        rw [frames]
        exact List.mem_cons_of_mem _ inOuter
      · intro source others listed
        exact invariant.edges source others (frames ▸ List.mem_cons_of_mem _ listed)
      · intro source on target edge
        rcases invariant.followed source on target edge with ⟨others, listed, pending⟩ | later
        · rw [frames] at listed
          rcases List.mem_cons.mp listed with new | old
          · cases new
            cases pending
          · exact .inl ⟨others, old, pending⟩
        · exact .inr later

/-- Every node of a layer reaches the lowest one, if that one reaches no node below the layer. -/
theorem Invariant.reaches_lowest (invariant : Invariant graph search) {node : Nat}
    {outer left rest : List Nat} (layer : TopLayer search node outer left rest)
    (lowest : search.lowLink node = search.rank node) :
    ∀ member ∈ left ++ [node], graph.Reaches member node := by
  have descent : ∀ bound, ∀ member ∈ left ++ [node], search.rank member ≤ bound →
      graph.Reaches member node := by
    intro bound
    induction bound with
    | zero =>
        intro member inLayer atMost
        rcases List.mem_append.mp inLayer with inLeft | same
        · have above := layer.above_lt member inLeft
          omega
        · rw [List.mem_singleton.mp same]
          exact .refl
    | succ bound induction =>
        intro member inLayer atMost
        rcases List.mem_append.mp inLayer with inLeft | same
        · obtain ⟨above, less⟩ := layer.links member inLeft
          obtain ⟨reached, on, equal, path⟩ :=
            invariant.witness member (layer.mem_stack.mpr (.inl inLayer))
          have still : reached ∈ left ++ [node] := (layer.mem_layer on).mpr (by omega)
          exact path.trans (induction reached still (by omega))
        · rw [List.mem_singleton.mp same]
          exact .refl
  exact fun member inLayer => descent _ member inLayer (Nat.le_refl _)

/-- The edges of a layer stay in it or lead to complete components, if its lowest node reaches no node
below the layer and all its edges were followed. -/
theorem Invariant.edges_of_layer (invariant : Invariant graph search) {node : Nat}
    {outer : List (Nat × List Nat)} {left rest : List Nat}
    (frames : search.frames = (node, []) :: outer)
    (layer : TopLayer search node (outer.map Prod.fst) left rest)
    (lowest : search.lowLink node = search.rank node) :
    ∀ source ∈ left ++ [node], ∀ target, graph.Edge source target →
      target ∈ left ++ [node] ∨ target ∈ search.complete.flatten := by
  intro source inLayer target edge
  have on : source ∈ search.stack := layer.mem_stack.mpr (.inl inLayer)
  rcases invariant.followed source on target edge with ⟨targets, listed, pending⟩ | done | ⟨up, low⟩
  · rw [frames] at listed
    rcases List.mem_cons.mp listed with new | old
    · cases new
      cases pending
    · have inRest := layer.below.subset source (List.mem_map.mpr ⟨_, old, rfl⟩)
      have less := layer.lt_below source inRest
      have more := (layer.mem_layer on).mp inLayer
      omega
  · exact .inr done
  · refine .inl ((layer.mem_layer up).mpr ?_)
    rcases List.mem_append.mp inLayer with inLeft | same
    · have above := (layer.links source inLeft).1
      omega
    · rw [List.mem_singleton.mp same] at low
      omega

/-- Completing the layer of a node whose edges were all followed and whose low link is its number
keeps the invariant. -/
theorem Invariant.close (invariant : Invariant graph search) {node : Nat}
    {outer : List (Nat × List Nat)} (frames : search.frames = (node, []) :: outer)
    (lowest : search.lowLink node = search.rank node) :
    Invariant graph ({ search with frames := outer }.close node) := by
  obtain ⟨left, rest, layer⟩ := invariant.topLayer frames
  have popped : popThrough node search.stack = (left ++ [node], rest) := by
    rw [layer.stack, popThrough_append layer.fresh]
  have inRest : ∀ member ∈ search.stack, search.rank member < search.rank node →
      member ∈ rest := by
    intro member on less
    exact (layer.mem_stack.mp on).resolve_left fun inLayer =>
      Nat.not_lt.mpr ((layer.mem_layer on).mp inLayer) less
  have onStack : ∀ member ∈ rest, member ∈ search.stack :=
    fun member inRest => layer.mem_stack.mpr (.inr inRest)
  have sorted := invariant.sorted
  rw [layer.stack, List.pairwise_append, List.pairwise_cons] at sorted
  have moved : (search.stack ++ search.complete.flatten).Perm
      (rest ++ ((left ++ [node]) :: search.complete).flatten) := by
    have front : search.stack = (left ++ [node]) ++ rest := by simp [layer.stack]
    rw [front, List.flatten_cons, ← List.append_assoc]
    exact List.perm_append_comm.append_right _
  simp only [ComponentSearch.close, popped]
  refine ⟨{
    indices_size := invariant.indices_size
    lowLinks_size := invariant.lowLinks_size
    onStack_size := ?_
    known := fun member => ?_
    nodup := ?_
    holds_iff := fun member => ?_
    rank_lt := fun member inRest => invariant.rank_lt member (onStack member inRest)
    sorted := sorted.2.1.2
    layered := layer.below.congr (fun _ _ => rfl) (fun _ _ => rfl)
    edges := fun source targets listed =>
      invariant.edges source targets (frames ▸ List.mem_cons_of_mem _ listed)
    lowLink_le := fun member inRest => invariant.lowLink_le member (onStack member inRest)
    witness := fun member memberIn => ?_
    descends := fun parent listed upper upperIn =>
      invariant.descends parent (by rw [frames]; exact List.mem_cons_of_mem _ listed) upper
        (onStack upper upperIn)
    settled := ⟨by simp, ?_, invariant.edges_of_layer frames layer lowest, invariant.settled⟩ },
    fun source sourceIn target edge => ?_⟩
  · exact (size_unmark _ _).trans invariant.onStack_size
  · have flat : member ∈ ((left ++ [node]) :: search.complete).flatten ↔
        member ∈ left ++ [node] ∨ member ∈ search.complete.flatten := by
      rw [List.flatten_cons, List.mem_append]
    refine (invariant.known member).trans ?_
    rw [layer.mem_stack, flat]
    tauto
  · exact moved.nodup_iff.mp invariant.nodup
  · have onIff := invariant.holds_iff member
    have disjoint : member ∈ rest → member ∉ left ++ [node] := by
      intro below inLayer
      have less := layer.lt_below member below
      have more := (layer.mem_layer (onStack member below)).mp inLayer
      omega
    rw [layer.mem_stack] at onIff
    simp only [holds] at onIff ⊢
    rw [getD_unmark, Bool.and_eq_true, onIff, decide_eq_true_eq]
    tauto
  · obtain ⟨reached, on, equal, path⟩ := invariant.witness member (onStack member memberIn)
    refine ⟨reached, inRest reached on ?_, equal, path⟩
    rw [equal]
    exact Nat.lt_of_le_of_lt (invariant.lowLink_le member (onStack member memberIn))
      (layer.lt_below member memberIn)
  · intro first inFirst second inSecond
    refine (invariant.reaches_lowest layer lowest first inFirst).trans ?_
    have on : second ∈ search.stack := layer.mem_stack.mpr (.inl inSecond)
    exact invariant.descends node (by simp [frames]) second on ((layer.mem_layer on).mp inSecond)
  · rcases invariant.followed source (onStack source sourceIn) target edge with
      ⟨targets, listed, pending⟩ | done | ⟨up, low⟩
    · rw [frames] at listed
      rcases List.mem_cons.mp listed with new | old
      · cases new
        cases pending
      · exact .inl ⟨targets, old, pending⟩
    · exact .inr (.inl (by simp [done]))
    · rcases layer.mem_stack.mp up with inLayer | inRest
      · exact .inr (.inl (by simp only [List.flatten_cons, List.mem_append, inLayer, true_or]))
      · exact .inr (.inr ⟨inRest, low⟩)

/-- Telling the node under exploration around the innermost one about its low link keeps the
invariant. -/
theorem Invariant.tell (invariant : Invariant graph search) {node parent : Nat}
    {targets : List Nat} {outer : List (Nat × List Nat)}
    (frames : search.frames = (node, []) :: (parent, targets) :: outer) :
    Invariant graph (search.lower parent (search.lowLink node)) := by
  obtain ⟨left, rest, layer⟩ := invariant.topLayer frames
  have nodeOn : node ∈ search.stack := layer.mem_stack.mpr (by simp)
  obtain ⟨reached, on, equal, path⟩ := invariant.witness node nodeOn
  have listed : parent ∈ search.frames.map Prod.fst := by simp [frames]
  rw [← equal]
  exact invariant.lower listed on ((invariant.reaches_innermost frames parent listed).trans path)

/-- Leaving a node keeps the invariant. -/
theorem Invariant.leave (invariant : Invariant graph search) {node : Nat}
    {outer : List (Nat × List Nat)} (frames : search.frames = (node, []) :: outer) :
    Invariant graph ({ search with frames := outer }.leave node) := by
  obtain ⟨left, rest, layer⟩ := invariant.topLayer frames
  have nodeOn : node ∈ search.stack := layer.mem_stack.mpr (by simp)
  obtain ⟨index, known⟩ := Option.ne_none_iff_exists'.mp ((invariant.known node).mpr (.inl nodeOn))
  have rank : search.rank node = index := by simp [ComponentSearch.rank, known]
  unfold ComponentSearch.leave propagate
  cases outer with
  | nil =>
      dsimp only
      split
      · rename_i root
        have lowest : search.lowLink node = search.rank node := by
          rw [rank]
          exact (Option.some.inj (known.symm.trans root)).symm
        exact invariant.close frames lowest
      · rename_i inner
        obtain ⟨reached, on, equal, path⟩ := invariant.witness node nodeOn
        have atMost := invariant.lowLink_le node nodeOn
        have empty : rest = [] := by
          have below := layer.below
          rw [List.map_nil] at below
          cases below
          rfl
        have atLeast : search.rank node ≤ search.rank reached := by
          refine (layer.mem_layer on).mp ((layer.mem_stack.mp on).resolve_right ?_)
          simp [empty]
        refine absurd ?_ inner
        have lowest : search.lowLink node = index := by omega
        exact known.trans (congrArg some lowest.symm)
  | cons frame outer =>
      obtain ⟨parent, targets⟩ := frame
      have parentOn : parent ∈ search.stack :=
        invariant.layered.subset parent (by simp [frames])
      have told := invariant.tell frames
      have other : node ≠ parent := by
        have below := layer.below.subset parent (by simp)
        exact fun same => Nat.lt_irrefl _ (layer.lt_below node (same ▸ below))
      have kept : (search.lower parent (search.lowLink node)).lowLink node =
          search.lowLink node := lowLink_lower_of_ne other _
      dsimp only
      split
      · rename_i root
        have lowest : (search.lower parent (search.lowLink node)).lowLink node =
            search.rank node := by
          rw [rank]
          exact (Option.some.inj (known.symm.trans root)).symm
        exact told.close frames lowest
      · rename_i inner
        refine told.retire frames (fun lowest => inner ?_) ?_
        · refine known.trans (congrArg some ?_)
          exact rank.symm.trans lowest.symm
        · rw [kept]
          exact invariant.lowLink_lower_le_bound parentOn _

end ComponentSearch
end Digraph
end NwScript
