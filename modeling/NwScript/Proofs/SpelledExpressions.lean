import NwScript.Proofs.IntExpressions
import NwScript.Proofs.ScriptGrowth
import NwScript.Proofs.VariableNames
import NwScript.Script.Reading

/-!
# Nodes that spell an expression

A node spells an integer expression if it and the nodes below it are its operators and operands, one
for one.  Operands have smaller numbers than the nodes that use them, so that reading a node gives the
expression back, and a node spells the same expression however much the tree grows.
-/

namespace NwScript
namespace IntExpr

mutual

/-- A node and the nodes below it are an expression, where `first` is the variable of the lowest
local. -/
def Spells (catalog : ActionCatalog) (first : VarId) (tree : ScriptTree) : IntExpr → NodeId → Prop
  | literal value, node => tree.node node = .literal (.int value)
  | read slot, node => tree.node node = .reference (first + slot)
  | unary op operand, node =>
      ∃ inner < node, tree.node node = .unary op inner ∧ Spells catalog first tree operand inner
  | binary op left right, node =>
      ∃ one < node, ∃ other < node, tree.node node = .binary op one other ∧
        Spells catalog first tree left one ∧ Spells catalog first tree right other
  | logical op left right, node =>
      ∃ one < node, ∃ other < node, tree.node node = .logical op one other ∧
        Spells catalog first tree left one ∧ Spells catalog first tree right other
  | call action arguments, node =>
      ∃ operands, (∀ operand ∈ operands, operand < node) ∧
        tree.node node = .action action (Recover.actionName catalog action) operands ∧
        AllSpell catalog first tree arguments operands

/-- Nodes are expressions, one for one. -/
def AllSpell (catalog : ActionCatalog) (first : VarId) (tree : ScriptTree) :
    List IntExpr → List NodeId → Prop
  | [], nodes => nodes = []
  | value :: values, nodes =>
      ∃ node others, nodes = node :: others ∧ Spells catalog first tree value node ∧
        AllSpell catalog first tree values others

end

section Growth

variable {catalog : ActionCatalog} {first : VarId} {before after : ScriptTree}

mutual

/-- A node spells the same expression in a tree that keeps the nodes without bodies. -/
theorem Spells.transfer (kept : ∀ {id : NodeId}, id < before.size →
    (before.node id).body? = none → after.node id = before.node id) (value : IntExpr) {node : NodeId}
    (known : node < before.size) (spells : value.Spells catalog first before node) :
    value.Spells catalog first after node := by
  cases value with
  | literal value =>
      rw [Spells] at spells ⊢
      rw [kept known (by rw [spells]; rfl), spells]
  | read slot =>
      rw [Spells] at spells ⊢
      rw [kept known (by rw [spells]; rfl), spells]
  | unary op operand =>
      rw [Spells] at spells ⊢
      obtain ⟨inner, below, here, spelled⟩ := spells
      have same := kept known (by rw [here]; rfl)
      exact ⟨inner, below, same.trans here, spelled.transfer kept operand (below.trans known)⟩
  | binary op left right =>
      rw [Spells] at spells ⊢
      obtain ⟨one, one_below, other, other_below, here, spelled, rest⟩ := spells
      have same := kept known (by rw [here]; rfl)
      exact ⟨one, one_below, other, other_below, same.trans here,
        spelled.transfer kept left (one_below.trans known),
        rest.transfer kept right (other_below.trans known)⟩
  | logical op left right =>
      rw [Spells] at spells ⊢
      obtain ⟨one, one_below, other, other_below, here, spelled, rest⟩ := spells
      have same := kept known (by rw [here]; rfl)
      exact ⟨one, one_below, other, other_below, same.trans here,
        spelled.transfer kept left (one_below.trans known),
        rest.transfer kept right (other_below.trans known)⟩
  | call action arguments =>
      rw [Spells] at spells ⊢
      obtain ⟨operands, below, here, spelled⟩ := spells
      have same := kept known (by rw [here]; rfl)
      exact ⟨operands, below, same.trans here, spelled.transfer kept arguments
        fun operand listed => (below operand listed).trans known⟩

theorem AllSpell.transfer (kept : ∀ {id : NodeId}, id < before.size →
    (before.node id).body? = none → after.node id = before.node id) (values : List IntExpr) {nodes : List NodeId}
    (known : ∀ node ∈ nodes, node < before.size)
    (spell : AllSpell catalog first before values nodes) :
    AllSpell catalog first after values nodes := by
  cases values with
  | nil =>
      rw [AllSpell] at spell ⊢
      exact spell
  | cons value values =>
      rw [AllSpell] at spell ⊢
      obtain ⟨node, others, rfl, spelled, rest⟩ := spell
      exact ⟨node, others, rfl, spelled.transfer kept value (known node List.mem_cons_self),
        rest.transfer kept values fun other listed => known other (List.mem_cons_of_mem _ listed)⟩

end

/-- A node spells the same expression in a larger tree. -/
theorem Spells.grow (grows : before.Grows after) (value : IntExpr) {node : NodeId}
    (known : node < before.size) (spells : value.Spells catalog first before node) :
    value.Spells catalog first after node :=
  spells.transfer grows.node value known

theorem AllSpell.grow (grows : before.Grows after) (values : List IntExpr) {nodes : List NodeId}
    (known : ∀ node ∈ nodes, node < before.size)
    (spell : AllSpell catalog first before values nodes) :
    AllSpell catalog first after values nodes :=
  spell.transfer grows.node values known

end Growth

section Reading

variable {catalog : ActionCatalog} {first : VarId} {locals : Nat} {tree : ScriptTree}

/-- The locals are named in order. -/
def IsNamed (tree : ScriptTree) (first : VarId) (locals : Nat) : Prop :=
  ∀ slot < locals, ∃ entry, tree.vars.get? (first + slot) = some entry ∧ entry.type = .int ∧
    entry.kind = .localVar ∧ entry.parent = none ∧ entry.name = some (localName slot)

theorem IsNamed.varName (named : IsNamed tree first locals) {slot : Nat} (inside : slot < locals) :
    tree.varName (first + slot) = localName slot := by
  obtain ⟨entry, known, _, _, parent, name⟩ := named slot inside
  unfold ScriptTree.varName ScriptTree.varNameFrom
  rw [known]
  dsimp only
  rw [parent]
  cases tree.vars.size <;> simp [name]

/-- A use of a local reads as its name. -/
theorem IsNamed.expressionFrom (named : IsNamed tree first locals) {slot : Nat}
    (inside : slot < locals) {node : NodeId} (here : tree.node node = .reference (first + slot))
    (depth : Nat) : tree.expressionFrom (depth + 1) node = .word (localName slot) := by
  obtain ⟨entry, known, _, kind, _, _⟩ := named slot inside
  have no_value : tree.temporaryValue? (first + slot) = none := by
    rw [ScriptTree.temporaryValue?, known]
    simp [kind]
  rw [ScriptTree.expressionFrom, here]
  dsimp only
  rw [no_value, named.varName inside]

mutual

/-- A node that spells an expression reads as it. -/
theorem Spells.expressionFrom (named : IsNamed tree first locals) (value : IntExpr)
    (proper : value.Proper catalog locals) {node : NodeId}
    (spells : value.Spells catalog first tree node) {depth : Nat} (deep : node < depth) :
    tree.expressionFrom depth node = value.expression catalog := by
  obtain ⟨depth, rfl⟩ := Nat.exists_eq_succ_of_ne_zero (Nat.ne_zero_of_lt deep)
  have deeper : ∀ {operand}, operand < node → operand < depth := fun below =>
    Nat.lt_of_lt_of_le below (Nat.lt_succ_iff.mp deep)
  cases value with
  | literal value =>
      rw [Spells] at spells
      rw [ScriptTree.expressionFrom, spells, expression]
  | read slot =>
      rw [Spells] at spells
      rw [Proper] at proper
      rw [named.expressionFrom proper spells, expression]
  | unary op operand =>
      rw [Spells] at spells
      rw [Proper] at proper
      obtain ⟨inner, below, here, spelled⟩ := spells
      rw [ScriptTree.expressionFrom, here, expression,
        ← spelled.expressionFrom named operand proper (deeper below)]
  | binary op left right =>
      rw [Spells] at spells
      rw [Proper] at proper
      obtain ⟨one, one_below, other, other_below, here, spelled, rest⟩ := spells
      rw [ScriptTree.expressionFrom, here, expression,
        ← spelled.expressionFrom named left proper.1 (deeper one_below),
        ← rest.expressionFrom named right proper.2 (deeper other_below)]
  | logical op left right =>
      rw [Spells] at spells
      rw [Proper] at proper
      obtain ⟨one, one_below, other, other_below, here, spelled, rest⟩ := spells
      rw [ScriptTree.expressionFrom, here, expression,
        ← spelled.expressionFrom named left proper.1 (deeper one_below),
        ← rest.expressionFrom named right proper.2 (deeper other_below)]
  | call action arguments =>
      rw [Spells] at spells
      rw [Proper] at proper
      obtain ⟨operands, below, here, spelled⟩ := spells
      rw [ScriptTree.expressionFrom, here, expression,
        ← spelled.map_expressionFrom named arguments proper.2
          fun operand listed => deeper (below operand listed)]

theorem AllSpell.map_expressionFrom (named : IsNamed tree first locals) (values : List IntExpr)
    (proper : AllProper catalog locals values) {nodes : List NodeId}
    (spell : AllSpell catalog first tree values nodes) {depth : Nat}
    (deep : ∀ node ∈ nodes, node < depth) :
    nodes.map (tree.expressionFrom depth) = expressions catalog values := by
  cases values with
  | nil =>
      rw [AllSpell] at spell
      rw [spell, expressions, List.map_nil]
  | cons value values =>
      rw [AllSpell] at spell
      rw [AllProper] at proper
      obtain ⟨node, others, rfl, spelled, rest⟩ := spell
      rw [List.map_cons, expressions,
        spelled.expressionFrom named value proper.1 (deep node List.mem_cons_self),
        rest.map_expressionFrom named values proper.2
          fun other listed => deep other (List.mem_cons_of_mem _ listed)]

end

end Reading

end IntExpr
end NwScript
