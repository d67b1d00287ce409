import NwScript.Proofs.StatementGains
import NwScript.Proofs.StructuredCode
import NwScript.Script.Cleanup
import NwScript.Script.Reading

/-!
# Reading structured statements

The nodes that structured statements become, one for each statement and two for a branch with an else
branch.  A body is written after the node that owns it, so reading goes down to larger numbers and ends,
and no rule of the cleanup has anything to do.
-/

namespace NwScript
namespace Structured

/-- A node calls an action with a literal. -/
structure Calls (tree : ScriptTree) (low : NodeId) (action : Nat) (name : String) (value : Constant)
    (call literal : NodeId) : Prop where
  /-- The call. -/
  calls : tree.node call = .action action name [literal]
  /-- The argument. -/
  passes : tree.node literal = .literal value
  /-- The call is one of the nodes from a number on. -/
  call_inside : low ≤ call ∧ call < tree.size
  /-- So is the argument. -/
  literal_inside : low ≤ literal ∧ literal < tree.size

/-- Nodes from a number on are some statements. -/
inductive Reads (tree : ScriptTree) : (low : NodeId) → List Structured → List NodeId → Prop
  /-- No statements. -/
  | nil (low : NodeId) : Reads tree low [] []
  /-- A print. -/
  | print {low : NodeId} {text : String} {rest : List Structured} {node call literal : NodeId}
      {others : List NodeId} (inside : low ≤ node ∧ node < tree.size)
      (here : tree.node node = .statement call)
      (calls : Calls tree low 1 "PrintString" (.string text) call literal)
      (behind : Reads tree low rest others) : Reads tree low (.print text :: rest) (node :: others)
  /-- A branch. -/
  | branch {low : NodeId} {inner rest : List Structured} {node test literal : NodeId} {body : Body}
      {others : List NodeId} (inside : low ≤ node ∧ node < tree.size)
      (here : tree.node node = .branch (some test) body none)
      (calls : Calls tree low 0 "Random" (.int 2) test literal)
      (guards : Reads tree (node + 1) inner body.children) (behind : Reads tree low rest others) :
      Reads tree low (.branch inner :: rest) (node :: others)
  /-- A branch with an else branch. -/
  | branchElse {low : NodeId} {inner outer rest : List Structured} {node other test literal : NodeId}
      {body alternative : Body} {skip : Nat} {others : List NodeId}
      (inside : low ≤ node ∧ node < tree.size) (other_inside : low ≤ other ∧ other < tree.size)
      (here : tree.node node = .branch (some test) body (some skip))
      (there : tree.node other = .otherwise alternative)
      (calls : Calls tree low 0 "Random" (.int 2) test literal)
      (guards : Reads tree (node + 1) inner body.children)
      (skips : Reads tree (other + 1) outer alternative.children)
      (behind : Reads tree low rest others) :
      Reads tree low (.branchElse inner outer :: rest) (node :: other :: others)
  /-- A loop. -/
  | loop {low : NodeId} {inner rest : List Structured} {node test literal : NodeId} {body : Body}
      {others : List NodeId} (inside : low ≤ node ∧ node < tree.size)
      (here : tree.node node = .whileLoop (some test) body)
      (calls : Calls tree low 0 "Random" (.int 2) test literal)
      (guards : Reads tree (node + 1) inner body.children) (behind : Reads tree low rest others) :
      Reads tree low (.loop inner :: rest) (node :: others)

section Reads

variable {before after tree : ScriptTree} {low : NodeId} {statements more : List Structured}
  {nodes others : List NodeId}

/-- Two trees agree on the nodes of the first one from a number on. -/
def AgreeFrom (before after : ScriptTree) (low : NodeId) : Prop :=
  before.size ≤ after.size ∧ ∀ id, low ≤ id → id < before.size → after.node id = before.node id

theorem AgreeFrom.mono (agree : AgreeFrom before after low) {higher : NodeId} (up : low ≤ higher) :
    AgreeFrom before after higher :=
  ⟨agree.1, fun id above old => agree.2 id (Nat.le_trans up above) old⟩

theorem Calls.transfer {action : Nat} {name : String} {value : Constant} {call literal : NodeId}
    (calls : Calls before low action name value call literal) (agree : AgreeFrom before after low) :
    Calls after low action name value call literal where
  calls := (agree.2 call calls.call_inside.1 calls.call_inside.2).trans calls.calls
  passes := (agree.2 literal calls.literal_inside.1 calls.literal_inside.2).trans calls.passes
  call_inside := ⟨calls.call_inside.1, Nat.lt_of_lt_of_le calls.call_inside.2 agree.1⟩
  literal_inside := ⟨calls.literal_inside.1, Nat.lt_of_lt_of_le calls.literal_inside.2 agree.1⟩

/-- A call reads the same while another node gains statements. -/
theorem Calls.gains {action : Nat} {name : String} {value : Constant} {call literal parent : NodeId}
    {children : List NodeId} (calls : Calls before low action name value call literal)
    (gains : before.Gains after parent children) (aside : call ≠ parent ∧ literal ≠ parent) :
    Calls after low action name value call literal where
  calls := (gains.node_of_ne calls.call_inside.2 aside.1).trans calls.calls
  passes := (gains.node_of_ne calls.literal_inside.2 aside.2).trans calls.passes
  call_inside := ⟨calls.call_inside.1, Nat.lt_of_lt_of_le calls.call_inside.2 gains.size⟩
  literal_inside := ⟨calls.literal_inside.1, Nat.lt_of_lt_of_le calls.literal_inside.2 gains.size⟩

/-- Statements read the same in a tree with the same nodes. -/
theorem Reads.transfer (reads : Reads before low statements nodes)
    (agree : AgreeFrom before after low) : Reads after low statements nodes := by
  have moved : ∀ {low id : NodeId}, AgreeFrom before after low → low ≤ id ∧ id < before.size →
      low ≤ id ∧ id < after.size :=
    fun agree inside => ⟨inside.1, Nat.lt_of_lt_of_le inside.2 agree.1⟩
  induction reads with
  | nil low => exact .nil low
  | print inside here calls behind rest =>
      have same := agree.2 _ inside.1 inside.2
      exact .print (moved agree inside) (same.trans here) (calls.transfer agree) (rest agree)
  | branch inside here calls guards behind inner rest =>
      have same := agree.2 _ inside.1 inside.2
      exact .branch (moved agree inside) (same.trans here) (calls.transfer agree)
        (inner (agree.mono (Nat.le_succ_of_le inside.1))) (rest agree)
  | branchElse inside other_inside here there calls guards skips behind inner outer rest =>
      have same := agree.2 _ inside.1 inside.2
      have same_other := agree.2 _ other_inside.1 other_inside.2
      exact .branchElse (moved agree inside) (moved agree other_inside) (same.trans here)
        (same_other.trans there) (calls.transfer agree)
        (inner (agree.mono (Nat.le_succ_of_le inside.1)))
        (outer (agree.mono (Nat.le_succ_of_le other_inside.1))) (rest agree)
  | loop inside here calls guards behind inner rest =>
      have same := agree.2 _ inside.1 inside.2
      exact .loop (moved agree inside) (same.trans here) (calls.transfer agree)
        (inner (agree.mono (Nat.le_succ_of_le inside.1))) (rest agree)

theorem Calls.mono {action : Nat} {name : String} {value : Constant} {call literal : NodeId}
    (calls : Calls tree low action name value call literal) {lower : NodeId} (down : lower ≤ low) :
    Calls tree lower action name value call literal where
  calls := calls.calls
  passes := calls.passes
  call_inside := ⟨Nat.le_trans down calls.call_inside.1, calls.call_inside.2⟩
  literal_inside := ⟨Nat.le_trans down calls.literal_inside.1, calls.literal_inside.2⟩

theorem Reads.mono (reads : Reads tree low statements nodes) {lower : NodeId} (down : lower ≤ low) :
    Reads tree lower statements nodes := by
  have lowered : ∀ {low id : NodeId}, lower ≤ low → low ≤ id ∧ id < tree.size →
      lower ≤ id ∧ id < tree.size :=
    fun down inside => ⟨Nat.le_trans down inside.1, inside.2⟩
  induction reads with
  | nil low => exact .nil lower
  | print inside here calls behind rest =>
      exact .print (lowered down inside) here (calls.mono down) (rest down)
  | branch inside here calls guards behind inner rest =>
      exact .branch (lowered down inside) here (calls.mono down) guards (rest down)
  | branchElse inside other_inside here there calls guards skips behind inner outer rest =>
      exact .branchElse (lowered down inside) (lowered down other_inside) here there
        (calls.mono down) guards skips (rest down)
  | loop inside here calls guards behind inner rest =>
      exact .loop (lowered down inside) here (calls.mono down) guards (rest down)

/-- Statements and others behind them. -/
theorem Reads.append (first : Reads tree low statements nodes) (second : Reads tree low more others) :
    Reads tree low (statements ++ more) (nodes ++ others) := by
  induction first with
  | nil low => exact second
  | print inside here calls behind rest => exact .print inside here calls (rest second)
  | branch inside here calls guards behind inner rest =>
      exact .branch inside here calls guards (rest second)
  | branchElse inside other_inside here there calls guards skips behind inner outer rest =>
      exact .branchElse inside other_inside here there calls guards skips (rest second)
  | loop inside here calls guards behind inner rest =>
      exact .loop inside here calls guards (rest second)

theorem Reads.inside (reads : Reads tree low statements nodes) :
    ∀ node ∈ nodes, low ≤ node ∧ node < tree.size := by
  induction reads with
  | nil low => exact fun node listed => absurd listed List.not_mem_nil
  | print inside here calls behind rest => exact List.forall_mem_cons.mpr ⟨inside, rest⟩
  | branch inside here calls guards behind inner rest =>
      exact List.forall_mem_cons.mpr ⟨inside, rest⟩
  | branchElse inside other_inside here there calls guards skips behind inner outer rest =>
      exact List.forall_mem_cons.mpr ⟨inside, List.forall_mem_cons.mpr ⟨other_inside, rest⟩⟩
  | loop inside here calls guards behind inner rest =>
      exact List.forall_mem_cons.mpr ⟨inside, rest⟩

end Reads

section Statements

variable {tree : ScriptTree} {low : NodeId} {body : List Structured} {nodes : List NodeId}

/-- Reading a call needs only two levels. -/
theorem Calls.expression {action : Nat} {name : String} {value : Constant} {call literal : NodeId}
    (calls : Calls tree low action name value call literal) :
    tree.expression call = .call name [.literal value] := by
  obtain ⟨depth, size⟩ := Nat.exists_eq_succ_of_ne_zero (Nat.ne_zero_of_lt calls.call_inside.2)
  rw [ScriptTree.expression, size, ScriptTree.expressionFrom, calls.calls]
  dsimp only
  rw [List.map_singleton, ScriptTree.expressionFrom, calls.passes]

/-- A branch stays alone unless an else branch follows. -/
theorem pairElse_branch {condition : Expression} {inner rest : List Statement}
    (alone : ∀ other, rest.head? ≠ some (.otherwise other)) :
    Statement.pairElse (.branch condition inner :: rest) =
      .branch condition inner :: Statement.pairElse rest := by
  cases rest with
  | nil => rfl
  | cons statement rest =>
      cases statement with
      | otherwise other => exact absurd rfl (alone other)
      | _ => rfl

/-- Statements do not begin with an else branch. -/
theorem Reads.head_ne_otherwise (reads : Reads tree low body nodes) (depth : Nat)
    (other : List Statement) :
    (nodes.map (tree.statementFrom depth)).head? ≠ some (.otherwise other) := by
  have shown : ∀ (node : NodeId) (others : List NodeId), (∀ inner, tree.node node ≠ .otherwise inner) →
      ((node :: others).map (tree.statementFrom depth)).head? ≠ some (.otherwise other) := by
    intro node others plain
    rw [List.map_cons, List.head?_cons, ne_eq, Option.some.injEq]
    cases depth with
    | zero => exact Statement.noConfusion
    | succ depth =>
        rw [ScriptTree.statementFrom]
        dsimp only
        split <;> first
          | exact Statement.noConfusion
          | exact absurd ‹_› (plain _)
  cases reads with
  | nil => exact fun same => absurd same (by simp)
  | print _ here | branch _ here | branchElse _ _ here | loop _ here =>
      exact shown _ _ fun inner same => absurd (here.symm.trans same) Node.noConfusion

/-- A node is above the last depth, and the nodes behind it are deep enough for one less. -/
theorem exists_depth {node depth : Nat} (old : node < tree.size) (deep : tree.size ≤ depth + node) :
    ∃ less, depth = less + 1 ∧ ∀ child, node + 1 ≤ child → tree.size ≤ less + child := by
  refine ⟨depth - 1, by omega, fun child behind => ?_⟩
  omega

/-- Nodes that are statements read as these. -/
theorem Reads.pairElse_statements (reads : Reads tree low body nodes) {depth : Nat}
    (deep : ∀ node ∈ nodes, tree.size ≤ depth + node) :
    Statement.pairElse (nodes.map (tree.statementFrom depth)) = statements body := by
  induction reads generalizing depth with
  | nil low => rfl
  | print inside here calls behind rest =>
      obtain ⟨node_deep, others_deep⟩ := List.forall_mem_cons.mp deep
      have others := rest others_deep
      obtain ⟨less, rfl, _⟩ := exists_depth inside.2 node_deep
      rw [List.map_cons, ScriptTree.statementFrom, here]
      dsimp only
      rw [calls.expression, statements, ← others]
      rfl
  | branch inside here calls guards behind inner rest =>
      obtain ⟨node_deep, others_deep⟩ := List.forall_mem_cons.mp deep
      have others := rest others_deep
      have alone := behind.head_ne_otherwise depth
      obtain ⟨less, rfl, deeper⟩ := exists_depth inside.2 node_deep
      have below := inner fun child listed => deeper child (guards.inside child listed).1
      rw [List.map_cons, ScriptTree.statementFrom, here]
      dsimp only
      rw [ScriptTree.expressionD, Option.map_some, Option.getD_some, calls.expression, below,
        pairElse_branch alone, others]
      rfl
  | branchElse inside other_inside here there calls guards skips behind inner outer rest =>
      obtain ⟨node_deep, others_deep⟩ := List.forall_mem_cons.mp deep
      obtain ⟨other_deep, others_deep⟩ := List.forall_mem_cons.mp others_deep
      have others := rest others_deep
      obtain ⟨less, rfl, deeper⟩ := exists_depth inside.2 node_deep
      obtain ⟨same, equal, other_deeper⟩ := exists_depth other_inside.2 other_deep
      obtain rfl : less = same := Nat.succ.inj equal
      have below := inner fun child listed => deeper child (guards.inside child listed).1
      have beside := outer fun child listed => other_deeper child (skips.inside child listed).1
      rw [List.map_cons, List.map_cons, ScriptTree.statementFrom, here, ScriptTree.statementFrom,
        there]
      dsimp only
      rw [ScriptTree.expressionD, Option.map_some, Option.getD_some, calls.expression, below, beside,
        statements, ← others]
      rfl
  | loop inside here calls guards behind inner rest =>
      obtain ⟨node_deep, others_deep⟩ := List.forall_mem_cons.mp deep
      have others := rest others_deep
      obtain ⟨less, rfl, deeper⟩ := exists_depth inside.2 node_deep
      have below := inner fun child listed => deeper child (guards.inside child listed).1
      rw [List.map_cons, ScriptTree.statementFrom, here]
      dsimp only
      rw [ScriptTree.expressionD, Option.map_some, Option.getD_some, calls.expression, below,
        statements, ← others]
      rfl

end Statements

section Cleanup

variable {tree : ScriptTree} {low : NodeId} {body : List Structured} {nodes : List NodeId}

/-- A node stands among the statements of a body when nothing is left to tidy up. -/
def IsLine : Node → Prop
  | .branch _ _ _ | .otherwise _ | .whileLoop _ _ | .statement _ => True
  | _ => False

/-- A node that needs no cleanup, stands for nothing that is missing and names no variable. -/
structure IsClean (tree : ScriptTree) (id : NodeId) : Prop where
  /-- Its statements are lines. -/
  lines : ∀ child ∈ tree.children id, IsLine (tree.node child)
  /-- It is no stand-in. -/
  shown : ScriptTree.isPlaceholder (tree.node id) = false
  /-- It names no variable. -/
  unnamed : tree.namedVar? (tree.node id) = none

/-- Below a clean node everything is clean if it is below its operands and statements. -/
theorem clean_walkFrom {id : NodeId} (clean : IsClean tree id)
    (below : ∀ child ∈ (tree.node id).operands ++ tree.children id, ∀ depth,
      ∀ found ∈ tree.walkFrom depth child, IsClean tree found) (depth : Nat) :
    ∀ found ∈ tree.walkFrom depth id, IsClean tree found := by
  cases depth with
  | zero => exact fun found listed => absurd listed List.not_mem_nil
  | succ depth =>
      intro found listed
      rw [ScriptTree.walkFrom] at listed
      rcases List.mem_cons.mp listed with rfl | deeper
      · exact clean
      · obtain ⟨child, member, inner⟩ := List.mem_flatMap.mp deeper
        exact below child member depth found inner

theorem Calls.clean {action : Nat} {name : String} {value : Constant} {call literal : NodeId}
    (calls : Calls tree low action name value call literal)
    (plain : ScriptTree.isReserved name = false) (depth : Nat) :
    ∀ found ∈ tree.walkFrom depth call, IsClean tree found := by
  have no_children : ∀ id, (tree.node id).body? = none → tree.children id = [] := by
    intro id bare
    rw [ScriptTree.children, bare]
    rfl
  have call_bare := no_children call (by rw [calls.calls]; rfl)
  have literal_bare := no_children literal (by rw [calls.passes]; rfl)
  refine clean_walkFrom ⟨?_, ?_, ?_⟩ ?_ depth
  · rw [call_bare]
    exact fun child listed => absurd listed List.not_mem_nil
  · rw [calls.calls]
    exact plain
  · rw [calls.calls]
    rfl
  · rw [calls.calls, call_bare, List.append_nil]
    intro child listed
    rw [List.mem_singleton.mp listed]
    refine clean_walkFrom ⟨?_, ?_, ?_⟩ ?_
    · rw [literal_bare]
      exact fun child listed => absurd listed List.not_mem_nil
    · rw [calls.passes]
      rfl
    · rw [calls.passes]
      rfl
    · rw [calls.passes, literal_bare]
      exact fun child listed => absurd listed List.not_mem_nil

/-- Everything from a node on is clean. -/
def IsCleanBelow (tree : ScriptTree) (id : NodeId) : Prop :=
  ∀ depth, ∀ found ∈ tree.walkFrom depth id, IsClean tree found

/-- A line is clean below if its operands and its statements are. -/
theorem cleanBelow_line {id : NodeId} (line : IsLine (tree.node id))
    (uses : ∀ operand ∈ (tree.node id).operands, IsCleanBelow tree operand)
    (owns : ∀ child ∈ tree.children id, IsLine (tree.node child) ∧ IsCleanBelow tree child) :
    IsCleanBelow tree id := by
  refine clean_walkFrom ⟨fun child listed => (owns child listed).1, ?_, ?_⟩ fun child listed => ?_
  · revert line
    cases tree.node id <;> simp [IsLine, ScriptTree.isPlaceholder]
  · revert line
    cases tree.node id <;> simp [IsLine, ScriptTree.namedVar?]
  · rcases List.mem_append.mp listed with used | owned
    · exact uses child used
    · exact (owns child owned).2

/-- The nodes of statements are lines, and everything below them is clean. -/
theorem Reads.clean (reads : Reads tree low body nodes) :
    ∀ node ∈ nodes, IsLine (tree.node node) ∧ IsCleanBelow tree node := by
  have guarded : ∀ {node low call literal : NodeId} {inner : Body}, IsLine (tree.node node) →
      (tree.node node).operands = [call] → (tree.node node).body? = some inner →
      Calls tree low 0 "Random" (.int 2) call literal →
      (∀ child ∈ inner.children, IsLine (tree.node child) ∧ IsCleanBelow tree child) →
      IsLine (tree.node node) ∧ IsCleanBelow tree node := by
    intro node low call literal inner line uses owns calls below
    refine ⟨line, cleanBelow_line line ?_ ?_⟩
    · rw [uses, List.forall_mem_singleton]
      exact calls.clean (by decide +kernel)
    · rw [ScriptTree.children, owns]
      exact below
  induction reads with
  | nil low => exact fun node listed => absurd listed List.not_mem_nil
  | @print _ _ _ node call _ _ inside here calls behind rest =>
      refine List.forall_mem_cons.mpr ⟨?_, rest⟩
      have line : IsLine (tree.node node) := by
        rw [here]
        trivial
      refine ⟨line, cleanBelow_line line ?_ ?_⟩
      · rw [here, Node.operands, List.forall_mem_singleton]
        exact calls.clean (by decide +kernel)
      · rw [ScriptTree.children, here]
        exact fun child listed => absurd listed List.not_mem_nil
  | branch inside here calls guards behind inner rest =>
      refine List.forall_mem_cons.mpr ⟨guarded ?_ ?_ ?_ calls inner, rest⟩
      · rw [here]
        trivial
      · rw [here]
        rfl
      · rw [here]
        rfl
  | branchElse inside other_inside here there calls guards skips behind inner outer rest =>
      refine List.forall_mem_cons.mpr ⟨guarded ?_ ?_ ?_ calls inner,
        List.forall_mem_cons.mpr ⟨?_, rest⟩⟩
      · rw [here]
        trivial
      · rw [here]
        rfl
      · rw [here]
        rfl
      · rename_i other _ _ _ alternative _ _
        have line : IsLine (tree.node other) := by
          rw [there]
          trivial
        refine ⟨line, cleanBelow_line line ?_ ?_⟩
        · rw [there]
          exact fun operand listed => absurd listed List.not_mem_nil
        · rw [ScriptTree.children, there]
          exact outer
  | loop inside here calls guards behind inner rest =>
      refine List.forall_mem_cons.mpr ⟨guarded ?_ ?_ ?_ calls inner, rest⟩
      · rw [here]
        trivial
      · rw [here]
        rfl
      · rw [here]
        rfl

/-- No rule applies to a clean body. -/
theorem IsClean.cleanBody {id : NodeId} (clean : IsClean tree id) :
    ScriptTree.cleanBody id tree = (tree, 0) := by
  have kinds : ∀ child ∈ tree.children id, (tree.node child).isBlock = false ∧
      (tree.node child).isExpression = false ∧
        ∀ var init pending, tree.node child ≠ .declaration var init pending := by
    intro child listed
    have line := clean.lines child listed
    revert line
    cases tree.node child <;> simp [IsLine, Node.isBlock, Node.isExpression]
  have dropped : ∀ index, ∀ child ∈ (tree.children id).drop index, ∀ var init pending,
      tree.node child ≠ .declaration var init pending :=
    fun index child listed => (kinds child (List.mem_of_mem_drop listed)).2.2
  have flat : ScriptTree.flatten id tree = (tree, 0) := by
    refine ScriptTree.applyAll_eq_self fun place _ => ?_
    unfold ScriptTree.absorb?
    split
    · rename_i inner single
      have block := (kinds inner (by rw [single]; exact List.mem_singleton_self _)).1
      rw [block]
      rfl
    · rfl
  have promoted : ScriptTree.promote id tree = (tree, 0) := by
    refine ScriptTree.applyAll_eq_self fun child listed => ?_
    rw [ScriptTree.promote?, (kinds child listed).2.1]
    rfl
  have settled : ScriptTree.settle id tree = (tree, 0) := by
    refine ScriptTree.applyAll_eq_self fun child listed => ?_
    unfold ScriptTree.settle?
    split
    · exact absurd ‹_› ((kinds child listed).2.2 _ _ _)
    · rfl
  have merged : ScriptTree.mergeMembers id tree = (tree, 0) := by
    refine ScriptTree.applyAll_eq_self fun index _ => ?_
    have kept := dropped index
    unfold ScriptTree.merge?
    split
    · rfl
    · rename_i statement rest split_here
      have undeclared : tree.memberDeclaration? statement = none := by
        have other := kept statement (by rw [split_here]; exact List.mem_cons_self)
        unfold ScriptTree.memberDeclaration?
        split
        · exact absurd ‹_› (other _ _ _)
        · rfl
      rw [undeclared]
  have folded : ScriptTree.foldInitializers id tree = (tree, 0) := by
    refine ScriptTree.applyAll_eq_self fun index _ => ?_
    have kept := dropped index
    unfold ScriptTree.foldInitializer?
    split
    · rename_i declaration next rest split_here
      have other := kept declaration (by rw [split_here]; exact List.mem_cons_self)
      split
      · exact absurd ‹_› (other _ _ _)
      · rfl
    · rfl
  unfold ScriptTree.cleanBody
  split
  · simp only [ScriptTree.Tidying.andThen, flat, promoted, settled, merged, folded]
  · rfl

/-- Where everything is clean, the cleanup changes nothing. -/
theorem cleanup_eq_self (clean : IsCleanBelow tree ScriptTree.root) : tree.cleanup = (tree, 0) := by
  have all : ∀ nodes : List NodeId, (∀ id ∈ nodes, IsClean tree id) →
      ScriptTree.cleanAll nodes tree = (tree, 0) := by
    intro nodes
    induction nodes with
    | nil => exact fun _ => rfl
    | cons node nodes induction =>
        intro listed
        have one := (listed node List.mem_cons_self).cleanBody
        have others := induction fun id later => listed id (List.mem_cons_of_mem _ later)
        show ScriptTree.Tidying.andThen _ _ tree = _
        simp only [ScriptTree.Tidying.andThen, one, others]
  exact all tree.walk (clean _)

/-- Where everything is clean, nothing stands for something that is missing. -/
theorem placeholderCount_eq_zero (clean : IsCleanBelow tree ScriptTree.root)
    (no_params : tree.signature.params = []) : tree.placeholderCount = 0 := by
  have walked : ∀ id ∈ tree.walk, IsClean tree id := clean _
  have named : (tree.walk.map tree.node).filterMap tree.namedVar? = [] := by
    rw [List.filterMap_eq_nil_iff]
    intro node listed
    obtain ⟨id, member, rfl⟩ := List.mem_map.mp listed
    exact (walked id member).unnamed
  have shown : (tree.walk.map tree.node).countP ScriptTree.isPlaceholder = 0 := by
    rw [List.countP_eq_zero]
    intro node listed
    obtain ⟨id, member, rfl⟩ := List.mem_map.mp listed
    rw [(walked id member).shown]
    exact Bool.false_ne_true
  simp only [ScriptTree.placeholderCount, shown, named, no_params]
  rfl

end Cleanup

end Structured
end NwScript
