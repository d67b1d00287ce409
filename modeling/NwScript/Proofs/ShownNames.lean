import NwScript.Proofs.ShownWords
import NwScript.Proofs.TidiedLabels
import NwScript.Proofs.TreeWalks

/-!
# Names that a tree shows

Every word of the statements that a tree spells is shown by a node that can be reached from the root, or
is the stand-in for an expression that is missing.  Names of variables are given names, names of members,
or marks of what has no name.
-/

namespace NwScript

/-- The word that a node shows of its own, unless it names a variable. -/
def Node.ownWords : Node → List String
  | literal value => [value.sourceText]
  | member _ field => [field]
  | action _ name _ | call _ name _ | placeholder name => [name]
  | comment text => [text]
  | _ => []

theorem Node.ownWords_label (node : Node) : node.label.ownWords = node.ownWords := by
  cases node <;> rfl

theorem ScriptTree.ownWords_keepArguments (kept : Nat) (node : Node) :
    (keepArguments kept node).ownWords = node.ownWords := by
  cases node <;> rfl

namespace ScriptTree

variable {tree : ScriptTree} {vocabulary : Vocabulary} {marks : List String}

/-- The words of a node itself, apart from those of its operands and statements. -/
def shownBy (tree : ScriptTree) : Node → List String
  | .reference var => [tree.varName var]
  | .declaration var _ _ => [tree.declarationText var]
  | node => node.ownWords

/-- A word of what a node spells: the stand-in for a missing expression, or a word of some node that can
be reached. -/
def Spells (tree : ScriptTree) (id : NodeId) (word : String) : Prop :=
  word = Node.unknownOperand ∨ ∃ met, tree.Reaches id met ∧ word ∈ tree.shownBy (tree.node met)

section Spelling

variable {id lower : NodeId} {word : String}

theorem Spells.here (shown : word ∈ tree.shownBy (tree.node id)) : tree.Spells id word :=
  .inr ⟨id, .refl, shown⟩

theorem Spells.of_missing (shown : word ∈ missing.words) : tree.Spells id word :=
  .inl (List.mem_singleton.mp shown)

theorem Spells.of_reaches (reaches : tree.Reaches id lower) (spells : tree.Spells lower word) :
    tree.Spells id word := by
  rcases spells with same | ⟨met, later, shown⟩
  · exact .inl same
  · exact .inr ⟨met, reaches.trans later, shown⟩

theorem Spells.of_operand (used : lower ∈ (tree.node id).operands) (spells : tree.Spells lower word) :
    tree.Spells id word :=
  spells.of_reaches (.single (.inl used))

theorem Spells.of_child (held : lower ∈ tree.children id) (spells : tree.Spells lower word) :
    tree.Spells id word :=
  spells.of_reaches (.single (.inr held))

theorem temporaryValue?_of_isPlain {var : VarId} (plain : tree.vars.IsPlain var) :
    tree.temporaryValue? var = none := by
  obtain ⟨entry, found, valueless⟩ := plain
  rw [temporaryValue?, found]
  exact (ite_eq_right_iff.mpr fun _ => valueless)

/-- What a closure evaluates can be reached from it. -/
theorem reaches_of_closureValue? {body : Body} {value : NodeId} (here : tree.node id = .closure body)
    (evaluates : tree.closureValue? body = some value) : tree.Reaches id value := by
  unfold closureValue? at evaluates
  split at evaluates
  · rename_i statement only
    have held : tree.Reaches id statement := by
      refine .single (.inr ?_)
      rw [children, here]
      show statement ∈ body.children
      rw [only]
      exact List.mem_singleton_self statement
    unfold deferredValue? at evaluates
    split at evaluates
    · rename_i inner stated
      cases evaluates
      exact held.tail (.inl (by rw [stated]; exact List.mem_singleton_self _))
    · rename_i inner _ declared
      subst evaluates
      exact held.tail (.inl (by rw [declared]; exact List.mem_singleton_self _))
    · split at evaluates
      · cases evaluates
        exact held
      · cases evaluates
  · cases evaluates

/-- The words of the expression that a node spells. -/
theorem spells_of_mem_expressionFrom (named : tree.IsNamed vocabulary) (depth : Nat) (id : NodeId) :
    ∀ word ∈ (tree.expressionFrom depth id).words, tree.Spells id word := by
  induction depth generalizing id with
  | zero => exact fun _ => .of_missing
  | succ depth induction =>
      intro word
      have below : ∀ {operand}, operand ∈ (tree.node id).operands →
          word ∈ (tree.expressionFrom depth operand).words → tree.Spells id word :=
        fun used shown => .of_operand used (induction _ word shown)
      rw [expressionFrom]
      cases here : tree.node id with
      | reference var =>
          dsimp only
          rw [temporaryValue?_of_isPlain (named.reference here)]
          exact fun shown => .here (by rw [here]; exact shown)
      | closure body =>
          dsimp only
          cases evaluates : tree.closureValue? body with
          | none => exact .of_missing
          | some value =>
              exact fun shown => (induction _ word shown).of_reaches
                (reaches_of_closureValue? here evaluates)
      | literal value => exact fun shown => .here (by rw [here]; exact shown)
      | placeholder name => exact fun shown => .here (by rw [here]; exact shown)
      | member base field =>
          rw [here] at below
          intro shown
          rcases List.mem_append.mp shown with inner | outer
          · exact below List.mem_cons_self inner
          · exact .here (by rw [here]; exact outer)
      | vector x y z =>
          rw [here] at below
          intro shown
          rcases List.mem_append.mp shown with first | later
          · exact below (by simp [Node.operands]) first
          · rcases List.mem_append.mp later with second | third
            · exact below (by simp [Node.operands]) second
            · exact below (by simp [Node.operands]) third
      | assign left right | binary _ left right | logical _ left right =>
          rw [here] at below
          intro shown
          rcases List.mem_append.mp shown with first | second
          · exact below (by simp [Node.operands]) first
          · exact below (by simp [Node.operands]) second
      | unary _ operand | step _ _ operand =>
          rw [here] at below
          exact below (by simp [Node.operands])
      | action _ name arguments | call _ name arguments =>
          rw [here] at below
          intro shown
          rcases List.mem_cons.mp shown with called | passed
          · exact .here (by rw [here]; exact List.mem_singleton.mpr called)
          · obtain ⟨value, listed, inner⟩ := Expression.mem_wordsOf.mp passed
            obtain ⟨argument, used, rfl⟩ := List.mem_map.mp listed
            exact below used inner
      | _ => exact .of_missing

theorem spells_of_mem_expression (named : tree.IsNamed vocabulary) (id : NodeId) (word : String)
    (shown : word ∈ (tree.expression id).words) : tree.Spells id word :=
  spells_of_mem_expressionFrom named _ id word shown

/-- The words of the statement that a node spells. -/
theorem spells_of_mem_statementFrom (named : tree.IsNamed vocabulary) (depth : Nat) (id : NodeId) :
    ∀ word ∈ (tree.statementFrom depth id).words, tree.Spells id word := by
  induction depth generalizing id with
  | zero => exact spells_of_mem_expression named id
  | succ depth induction =>
      intro word
      have used : ∀ {operand}, operand ∈ (tree.node id).operands →
          word ∈ (tree.expression operand).words → tree.Spells id word :=
        fun operand shown => .of_operand operand (spells_of_mem_expression named _ word shown)
      have tested : ∀ {condition : Option NodeId}, condition.toList ⊆ (tree.node id).operands →
          word ∈ (tree.expressionD condition).words → tree.Spells id word := by
        rintro (_ | condition) listed
        · exact .of_missing
        · exact used (listed List.mem_cons_self)
      have held : ∀ {body : Body}, (tree.node id).body? = some body →
          word ∈ Statement.wordsOf (body.children.map (tree.statementFrom depth)) →
          tree.Spells id word := by
        intro body owned shown
        obtain ⟨statement, listed, inner⟩ := Statement.mem_wordsOf.mp shown
        obtain ⟨child, among, rfl⟩ := List.mem_map.mp listed
        refine .of_child ?_ (induction child word inner)
        rw [children, owned]
        exact among
      have paired : ∀ {body : Body}, (tree.node id).body? = some body → word ∈ Statement.wordsOf
          (Statement.pairElse (body.children.map (tree.statementFrom depth))) →
          tree.Spells id word := by
        intro body owned shown
        rw [Statement.wordsOf_pairElse] at shown
        exact held owned shown
      rw [statementFrom]
      cases here : tree.node id with
      | block body | closure body | otherwise body =>
          rw [here] at paired
          exact paired rfl
      | branch condition body | whileLoop condition body | doLoop condition body =>
          rw [here] at paired tested
          intro shown
          rcases List.mem_append.mp shown with first | later
          · exact tested (List.Subset.refl _) first
          · exact paired rfl later
      | switch subject body =>
          rw [here] at held used
          intro shown
          rcases List.mem_append.mp shown with first | later
          · exact used (List.mem_singleton_self subject) first
          · exact held rfl later
      | case label body =>
          rw [here] at paired used
          cases label with
          | none => exact paired rfl
          | some label =>
              intro shown
              rcases List.mem_append.mp shown with first | later
              · exact used (List.mem_singleton_self label) first
              · exact paired rfl later
      | declaration var init =>
          rw [here] at used
          have declared : word = tree.declarationText var → tree.Spells id word :=
            fun same => .here (by rw [here]; exact List.mem_singleton.mpr same)
          cases init with
          | none => exact fun shown => declared (List.mem_singleton.mp shown)
          | some value =>
              intro shown
              rcases List.mem_cons.mp shown with first | later
              · exact declared first
              · exact used (List.mem_singleton_self value) later
      | statement value =>
          rw [here] at used
          exact used (List.mem_singleton_self value)
      | ret value =>
          rw [here] at used
          cases value with
          | none => exact fun shown => absurd shown List.not_mem_nil
          | some value => exact used (List.mem_singleton_self value)
      | leave | next => exact fun shown => absurd shown List.not_mem_nil
      | comment text => exact fun shown => .here (by rw [here]; exact shown)
      | _ => exact spells_of_mem_expression named id word

/-- The words of the statements of a subroutine. -/
theorem spells_of_mem_statements (named : tree.IsNamed vocabulary) (word : String)
    (shown : word ∈ Statement.wordsOf tree.statements) : tree.Spells root word := by
  rw [statements, statementsOf, Statement.wordsOf_pairElse] at shown
  obtain ⟨statement, listed, inner⟩ := Statement.mem_wordsOf.mp shown
  obtain ⟨child, held, rfl⟩ := List.mem_map.mp listed
  exact .of_child held (spells_of_mem_statementFrom named _ child word inner)

end Spelling

/-- Names of the subroutines with special roles. -/
def roleNames : List String :=
  ["__globals", "__entry"]

/-- Beginnings of the reserved names that are shown although no stand-in is counted: for expressions that
are missing, for parameters and types that are undetermined, for variables without names, and for
subroutines with special roles. -/
def uncountedMarks : List String :=
  [Node.unknownOperand, "__unresolved_param", invalidMark, "__var"] ++ roleNames

/-- The variable that a node shows. -/
def shownVar? : Node → Option VarId
  | .reference var | .declaration var _ _ => some var
  | _ => none

/-- A variable has a determined type, and so has the outermost aggregate that holds it, whose name it is
shown by. -/
def determines (tree : ScriptTree) (var : VarId) : Bool :=
  (tree.vars.type var).isDetermined && (tree.vars.get? (tree.vars.root var)).any fun entry =>
    entry.name.isSome && entry.type.isDetermined

/-- Printing has nothing to make up for: no expression is missing, types are determined, variables have
names, and no subroutine with a special role is called. -/
structure IsDetermined (tree : ScriptTree) : Prop where
  /-- No expression is missing. -/
  expressions : Node.unknownOperand ∉ Statement.wordsOf tree.statements
  /-- The type of the result is determined. -/
  result : tree.signature.returnType.isDetermined
  /-- Parameters have names and determined types. -/
  params : ∀ var ∈ tree.signature.params, tree.determines var
  /-- So do the variables that are shown. -/
  vars : ∀ id ∈ tree.walk, ∀ var ∈ shownVar? (tree.node id), tree.determines var
  /-- No subroutine with a special role is called. -/
  roles : ∀ id ∈ tree.walk, ∀ word ∈ (tree.node id).ownWords, word ∉ roleNames

instance : DecidablePred IsDetermined := fun tree =>
  decidable_of_iff (Node.unknownOperand ∉ Statement.wordsOf tree.statements ∧
      tree.signature.returnType.isDetermined ∧ (∀ var ∈ tree.signature.params, tree.determines var) ∧
        (∀ id ∈ tree.walk, ∀ var ∈ shownVar? (tree.node id), tree.determines var) ∧
          ∀ id ∈ tree.walk, ∀ word ∈ (tree.node id).ownWords, word ∉ roleNames)
    ⟨fun ⟨expressions, result, params, vars, roles⟩ =>
      ⟨expressions, result, params, vars, roles⟩,
      fun ⟨expressions, result, params, vars, roles⟩ =>
        ⟨expressions, result, params, vars, roles⟩⟩

section Names

theorem isBare_memberName (type : Ty) (index : Nat) : IsBare (VarTable.memberName type index) := by
  have numbered : IsBare ("field" ++ toString (index + 1)) :=
    (by decide : IsBare "field").append (isBare_nat _)
  unfold VarTable.memberName
  dsimp only
  split
  · match index with
    | 0 | 1 | 2 => decide
    | index + 3 => exact numbered
  · exact numbered

theorem shows_typePart {type : Ty} (either : invalidMark ∈ marks ∨ type.isDetermined) :
    Shows marks (VarTable.typePart type) := by
  cases type with
  | aggregate members => exact (by decide : IsBare "struct").shows
  | simple code =>
      unfold VarTable.typePart Ty.code
      split
      · exact (by decide : IsBare "vec").shows
      · exact (by decide : IsBare "struct").shows
      · exact code.shows_name (either.imp_right of_decide_eq_true)

/-- A given name shows at most that its variable is undetermined. -/
theorem shows_of_isGiven {entry : Variable} {name : String} (given : VarTable.IsGiven entry name)
    (either : uncountedMarks ⊆ marks ∨ entry.type.isDetermined) : Shows marks name := by
  rcases given with ⟨number, rfl⟩ | ⟨undetermined, position, rfl⟩
  · have spelled : IsBare (VarTable.kindPart entry.kind) := by cases entry.kind <;> decide
    have type : Shows marks (VarTable.typePart entry.type) :=
      shows_typePart (either.imp_left fun included => included (by decide))
    exact (type.append spelled).append (isBare_nat number)
  · rcases either with included | determined
    · exact ((by decide : Shows uncountedMarks "__unresolved_param").append (isBare_nat position)).mono
        included
    · rw [Ty.isFullyTyped_of_isDetermined determined] at undetermined
      cases undetermined

/-- A variable is shown by the name of the outermost aggregate that holds it, and those of members. -/
theorem shows_varNameFrom (named : tree.IsNamed vocabulary) (depth : Nat) (id : VarId)
    (either : uncountedMarks ⊆ marks ∨ (tree.vars.get? (tree.vars.rootFrom depth id)).any fun entry =>
      entry.name.isSome && entry.type.isDetermined) : Shows marks (tree.varNameFrom depth id) := by
  have unknown : ∀ {test : Variable → Bool}, (uncountedMarks ⊆ marks ∨ Option.any test none = true) →
      Shows marks Node.unknownOperand := by
    intro test either
    have included := either.resolve_right Bool.false_ne_true
    exact (by decide : Shows uncountedMarks Node.unknownOperand).mono included
  have alone : ∀ {id : VarId} {entry : Variable}, tree.vars.get? id = some entry →
      (uncountedMarks ⊆ marks ∨ (entry.name.isSome && entry.type.isDetermined) = true) →
        Shows marks (entry.name.getD ("__var" ++ toString id)) := by
    intro id entry found either
    cases given : entry.name with
    | none =>
        rw [given] at either
        have included := either.resolve_right Bool.false_ne_true
        exact ((by decide : Shows uncountedMarks "__var").append (isBare_nat id)).mono included
    | some name =>
        rw [given] at either
        exact shows_of_isGiven (named.name found given) either
  induction depth generalizing id with
  | zero =>
      unfold varNameFrom
      rw [VarTable.rootFrom] at either
      cases found : tree.vars.get? id with
      | none => exact unknown (found ▸ either)
      | some entry => exact alone found (by rwa [found] at either)
  | succ depth induction =>
      unfold varNameFrom
      rw [VarTable.rootFrom, VarTable.parent?] at either
      cases found : tree.vars.get? id with
      | none =>
          rw [found] at either
          exact unknown (found ▸ either)
      | some entry =>
          rw [found] at either
          cases held : entry.parent with
          | none =>
              simp only [Option.bind_some, held, found] at either
              simp only [held]
              exact alone found either
          | some parent =>
              simp only [Option.bind_some, held] at either
              simp only [held]
              exact ((induction parent either).append (by decide)).append (isBare_memberName _ _)

theorem shows_varName (named : tree.IsNamed vocabulary) {var : VarId}
    (either : uncountedMarks ⊆ marks ∨ tree.determines var) : Shows marks (tree.varName var) :=
  shows_varNameFrom named _ var (either.imp_right fun determined => (Bool.and_eq_true_iff.mp determined).2)

theorem shows_declarationText (named : tree.IsNamed vocabulary) {var : VarId}
    (either : uncountedMarks ⊆ marks ∨ tree.determines var) : Shows marks (tree.declarationText var) := by
  have type : Shows marks (tree.structs.spell (tree.vars.type var)) := tree.structs.shows_spell
    (either.imp (fun included => included (by decide)) fun determined =>
      (Bool.and_eq_true_iff.mp determined).1)
  exact Expression.shows_between type (shows_varName named either) (by decide : IsBare " ") (by decide)

theorem closes_prototype (named : tree.IsNamed vocabulary)
    (either : uncountedMarks ⊆ marks ∨ tree.IsDetermined) (header : Shows marks tree.signature.name) :
    Closes marks tree.prototype := by
  have result : Shows marks (tree.structs.spell tree.signature.returnType) := tree.structs.shows_spell
    (either.imp (fun included => included (by decide)) fun determined => determined.result)
  have params : Shows marks (", ".intercalate (tree.signature.params.map tree.declarationText)) := by
    refine .intercalate (by decide) (by decide) fun text listed => ?_
    obtain ⟨var, declared, rfl⟩ := List.mem_map.mp listed
    exact shows_declarationText named (either.imp_right fun determined => determined.params var declared)
  have begun := Expression.shows_between result header (by decide : IsBare " ") (by decide)
  have opened := begun.closes (by decide : IsBare "(") (by decide)
  exact (opened.shows_append params).closes (by decide : IsBare ")") (by decide)

/-- A tree whose nodes show names of roles at most shows uncounted marks only, and none if it is
determined. -/
theorem closes_text (named : tree.IsNamed vocabulary)
    (either : uncountedMarks ⊆ marks ∨ tree.IsDetermined) (bare : IsBare tree.indent)
    (header : tree.kind = .function → Shows marks tree.signature.name)
    (shown : ∀ id ∈ tree.walk, ∀ word ∈ (tree.node id).ownWords, word ∈ roleNames ∨ Shows [] word) :
    Closes marks tree.text := by
  have words : ∀ word ∈ Statement.wordsOf tree.statements, Shows marks word := by
    intro word listed
    rcases spells_of_mem_statements named word listed with rfl | ⟨id, reaches, here⟩
    · have included := either.resolve_right fun determined => determined.expressions listed
      exact (by decide : Shows uncountedMarks Node.unknownOperand).mono included
    · have met := mem_walk_iff.mpr reaches
      have determines : ∀ {var}, shownVar? (tree.node id) = some var →
          uncountedMarks ⊆ marks ∨ tree.determines var :=
        fun shows => either.imp_right fun determined => determined.vars id met _ shows
      unfold shownBy at here
      split at here
      · rename_i var same
        rw [List.mem_singleton.mp here]
        exact shows_varName named (determines (by rw [same]; rfl))
      · rename_i var _ _ same
        rw [List.mem_singleton.mp here]
        exact shows_declarationText named (determines (by rw [same]; rfl))
      · rcases shown id met word here with role | plain
        · have included := either.resolve_right fun determined => determined.roles id met word here role
          exact ((by decide : ∀ word ∈ roleNames, Shows uncountedMarks word) word role).mono included
        · exact plain.mono (List.nil_subset _)
  unfold text
  split
  · rename_i function
    have begun := (closes_prototype named either (header function)).append
      (by decide : IsBare " \x7b\n").closes
    exact (begun.append (Statement.closes_lines bare 1 _ words)).append
      (by decide : IsBare "\x7d\n").closes
  · exact Statement.closes_lines bare 0 _ words

end Names

end ScriptTree
end NwScript
