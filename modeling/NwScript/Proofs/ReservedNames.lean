import Mathlib
import NwScript.Proofs.ShownNames
import NwScript.SourceProgram

/-!
# Reserved names in source programs

A program in which no stand-in is counted has only routines that were recovered, without comments, without
stand-ins for operands and without actions that the catalog does not know.  What reserved names it can
still show are those that printing makes up, and those of the subroutines with special roles.
-/

namespace NwScript

open ScriptTree

/-- Beginnings of the reserved names that are counted wherever they are shown. -/
def countedMarks : List String :=
  ["__action_", Recover.unresolvedJump, "__decompile_failed"]

/-- A text that shows uncounted marks only shows no counted ones. -/
theorem not_infix_of_shows {text mark : String} (shown : Shows uncountedMarks text)
    (counted : mark ∈ countedMarks) : ¬mark.toList <:+: text.toList := by
  have reserved : ∀ mark ∈ countedMarks, ['_', '_'] <+: mark.toList := by decide
  have apart : ∀ mark ∈ countedMarks, ∀ other ∈ uncountedMarks,
      ¬(mark.toList <+: other.toList ∨ other.toList <+: mark.toList) := by decide
  rintro ⟨before, after, split⟩
  obtain ⟨rest, begins⟩ := reserved mark counted
  have place : text.toList = before ++ '_' :: '_' :: (rest ++ after) := by
    rw [← split, ← begins]
    simp
  obtain ⟨other, listed, starts⟩ := showsOnly_iff.mp shown _ _ place
  have here : mark.toList <+: '_' :: '_' :: (rest ++ after) := ⟨after, by rw [← begins]; rfl⟩
  exact apart mark counted other listed (List.prefix_or_prefix_of_prefix here starts)

namespace ScriptTree

variable {tree : ScriptTree}

/-- Where no stand-in is counted, none is met. -/
theorem not_isPlaceholder_of_mem_walk (complete : tree.placeholderCount = 0) :
    ∀ id ∈ tree.walk, ¬isPlaceholder (tree.node id) := by
  intro id met
  have none_met := (Nat.add_eq_zero_iff.mp complete).1
  exact List.countP_eq_zero.mp none_met _ (List.mem_map_of_mem met)

theorem isPlaceholder_label (node : Node) : isPlaceholder node.label = isPlaceholder node := by
  cases node <;> rfl

theorem isPlaceholder_keepArguments (kept : Nat) (node : Node) :
    isPlaceholder (keepArguments kept node) = isPlaceholder node := by
  cases node <;> rfl

theorem isReserved_unknownAction (id : Nat) : isReserved ("__action_" ++ toString id) := by
  simp [isReserved, String.isPrefixOf]

/-- Words without double underscores are allowed, names of roles, and stand-ins that are counted. -/
def plainWords : Vocabulary where
  allows := fun node => isPlaceholder node ∨ ∀ word ∈ node.ownWords, word ∈ roleNames ∨ Shows [] word
  plain := .inr fun _ listed => absurd listed List.not_mem_nil
  reference := fun _ => .inr fun _ listed => absurd listed List.not_mem_nil
  member := by
    refine fun type index => .inr fun word listed => .inr ?_
    rw [List.mem_singleton.mp listed]
    exact (isBare_memberName type index).shows
  unknownOperand := .inl rfl
  unresolvedParam := fun _ => .inl rfl
  unresolvedJump := .inl rfl

/-- Where no stand-in is counted, nodes show names of roles and words without double underscores. -/
theorem plain_of_placeholderCount (named : tree.IsNamed plainWords) (complete : tree.placeholderCount = 0) :
    ∀ id ∈ tree.walk, ∀ word ∈ (tree.node id).ownWords, word ∈ roleNames ∨ Shows [] word := by
  intro id met
  have recovered := not_isPlaceholder_of_mem_walk complete id met
  obtain ⟨whole, kept, allowed, same⟩ := named.label id
  rw [← isPlaceholder_label, same, isPlaceholder_keepArguments] at recovered
  rw [← Node.ownWords_label, same, ownWords_keepArguments]
  exact allowed.resolve_left recovered

/-- A tree without counted stand-ins shows uncounted marks only, and none if it is determined. -/
theorem closes_of_placeholderCount {marks : List String} (named : tree.IsNamed plainWords)
    (complete : tree.placeholderCount = 0) (either : uncountedMarks ⊆ marks ∨ tree.IsDetermined)
    (bare : IsBare tree.indent) (header : tree.kind = .function → Shows [] tree.signature.name) :
    Closes marks tree.text ∧ (tree.kind = .function → Closes marks tree.prototype) := by
  have titled : tree.kind = .function → Shows marks tree.signature.name :=
    fun function => (header function).mono (List.nil_subset _)
  exact ⟨closes_text named either bare titled (plain_of_placeholderCount named complete),
    fun function => closes_prototype named either (titled function)⟩

end ScriptTree

namespace SourceProgram

variable {marks : List String} {program : SourceProgram}

/-- Printing a program has nothing to make up for: its routines are determined, and so are the aggregates
that it defines. -/
structure IsDetermined (program : SourceProgram) : Prop where
  /-- The routines are determined. -/
  routines : ∀ routine ∈ program.routines, ∀ tree ∈ routine.tree?, tree.IsDetermined
  /-- Members of aggregates have determined types. -/
  structs : ∀ members ∈ program.structs.named, ∀ member ∈ members, member.isDetermined

instance : DecidablePred IsDetermined := fun program =>
  decidable_of_iff ((∀ routine ∈ program.routines, ∀ tree ∈ routine.tree?, tree.IsDetermined) ∧
      ∀ members ∈ program.structs.named, ∀ member ∈ members, member.isDetermined)
    ⟨fun ⟨routines, structs⟩ => ⟨routines, structs⟩, fun ⟨routines, structs⟩ => ⟨routines, structs⟩⟩

theorem placeholderCount_eq_zero_iff :
    program.placeholderCount = 0 ↔ ∀ routine ∈ program.routines, routine.placeholderCount = 0 := by
  rw [placeholderCount]
  induction program.routines with
  | nil => simp
  | cons routine routines induction =>
      rw [List.map_cons, List.foldr_cons, Nat.add_eq_zero_iff, induction, List.forall_mem_cons]

theorem closes_definitionText (bare : IsBare program.indent) {name : String} (plain : IsBare name)
    {members : List Ty} (either : invalidMark ∈ marks ∨ ∀ member ∈ members, member.isDetermined) :
    Closes marks (program.definitionText name members) := by
  have fields : ∀ field ∈ members.mapIdx fun index member => program.indent ++
      program.structs.spell member ++ " field" ++ toString (index + 1) ++ ";\n", Closes marks field := by
    intro field listed
    obtain ⟨index, bound, rfl⟩ := List.mem_mapIdx.mp listed
    have type : Shows marks (program.structs.spell members[index]) := program.structs.shows_spell
      (either.imp_right fun determined => determined _ (List.getElem_mem bound))
    have numbered := ((bare.closes.shows_append type).append (by decide : IsBare " field")).append
      (isBare_nat (index + 1))
    exact numbered.closes (by decide : IsBare ";\n") (by decide)
  have header : Closes marks ("struct " ++ name ++ " \x7b\n") :=
    Statement.closes_around plain.shows (by decide) (by decide) (by decide)
  exact (header.append (.join fields)).append (by decide : IsBare "\x7d;\n").closes

/-- A program whose routines are recovered shows the marks of these. -/
theorem shows_text (bare : IsBare program.indent) (either : invalidMark ∈ marks ∨
      ∀ members ∈ program.structs.named, ∀ member ∈ members, member.isDetermined)
    (prototypes : ∀ routine ∈ program.functions, Closes marks routine.prototype)
    (trees : ∀ routine ∈ program.routines, ∃ tree, routine.outcome = .ok tree ∧ Closes marks tree.text) :
    Shows marks program.text := by
  have definitions : Closes marks program.definitionsText := by
    refine .join fun text listed => ?_
    obtain ⟨entry, defined, rfl⟩ := List.mem_map.mp listed
    obtain ⟨index, bound, rfl⟩ := List.mem_mapIdx.mp defined
    have named : IsBare (StructTable.nameOfNumber (index + 1)) :=
      (by decide : IsBare "structtype").append (isBare_nat _)
    exact closes_definitionText bare named
      (either.imp_right fun determined => determined _ (List.getElem_mem bound))
  have declarations : Closes marks program.prototypesText := by
    refine .join fun text listed => ?_
    obtain ⟨routine, kept, rfl⟩ := List.mem_map.mp listed
    exact (prototypes routine (List.mem_filter.mp kept).1).append (by decide : IsBare ";\n").closes
  have functions : Shows marks program.functionsText := by
    refine .intercalate (by decide) (by decide) fun text listed => ?_
    obtain ⟨routine, among, rfl⟩ := List.mem_map.mp listed
    obtain ⟨tree, recovered, closed⟩ := trees routine (List.mem_append_left _ among)
    rw [SourceRoutine.text, recovered]
    exact closed.shows
  have globals : ∀ text ∈ (program.globals.map SourceRoutine.globalsText).toList, Shows marks text := by
    intro text listed
    obtain ⟨routine, declared, rfl⟩ := Option.map_eq_some_iff.mp (Option.mem_toList.mp listed)
    obtain ⟨tree, recovered, closed⟩ := trees routine (List.mem_append_right _
      (Option.mem_toList.mpr declared))
    rw [SourceRoutine.globalsText, recovered]
    exact closed.shows
  unfold text
  refine .intercalate (by decide) (by decide) fun part listed => ?_
  have among := (List.mem_filter.mp listed).1
  simp only [List.cons_append, List.mem_cons, List.mem_append, List.not_mem_nil, or_false] at among
  rcases among with rfl | declared | rfl | rfl
  · exact definitions.shows
  · exact globals part declared
  · exact declarations.shows
  · exact functions

end SourceProgram

/-- The string that an instruction pushes. -/
def Operand.string? : Operand → Option String
  | .literal (.string text) => some text
  | _ => Option.none

section Programs

variable {program : Program} {catalog : ActionCatalog} {settings : Settings} {analysis : Analysis}
  {source : SourceProgram}

/-- The first name is the one of a role or holds no double underscores, and the others follow. -/
theorem Analysis.exists_namesFrom_cons (analysis : Analysis) (count sub : Nat) (subs : List Nat) :
    ∃ first next, analysis.namesFrom count (sub :: subs) = first :: analysis.namesFrom next subs ∧
      (Shows [] first ∨ first ∈ roleNames ∧
        (some sub = analysis.layout.globals ∨ some sub = analysis.layout.stub)) := by
  rw [namesFrom]
  dsimp only
  split
  · refine ⟨_, count, rfl, .inl ?_⟩
    split <;> decide
  · split
    · rename_i globals
      exact ⟨_, count, rfl, .inr ⟨by decide, .inl globals⟩⟩
    · split
      · rename_i stub
        exact ⟨_, count, rfl, .inr ⟨by decide, .inr stub⟩⟩
      · exact ⟨_, count + 1, rfl, .inl ((by decide : IsBare "sub").append (isBare_nat _)).shows⟩

theorem Analysis.role_of_getElem?_namesFrom (analysis : Analysis) (count : Nat) (subs : List Nat)
    {place : Nat} {name : String} (found : (analysis.namesFrom count subs)[place]? = some name) :
    Shows [] name ∨ name ∈ roleNames ∧ ∃ sub, subs[place]? = some sub ∧
      (some sub = analysis.layout.globals ∨ some sub = analysis.layout.stub) := by
  induction subs generalizing count place with
  | nil => cases found
  | cons sub subs induction =>
      obtain ⟨first, next, names, role⟩ := analysis.exists_namesFrom_cons count sub subs
      rw [names] at found
      cases place with
      | zero =>
          obtain rfl := Option.some.inj found
          exact role.imp_right fun ⟨reserved, special⟩ => ⟨reserved, sub, rfl, special⟩
      | succ place => exact induction next found

/-- A subroutine has the name of its role or one without double underscores. -/
theorem Analysis.name_plain (analysis : Analysis) (sub : Nat) :
    let name := (analysis.recoveryInput program catalog settings (analysis.names program)).name sub
    Shows [] name ∨ name ∈ roleNames ∧
      (some sub = analysis.layout.globals ∨ some sub = analysis.layout.stub) := by
  intro name
  have named : name = (analysis.names program)[sub]?.getD ("sub" ++ toString sub) := rfl
  cases found : (analysis.names program)[sub]? with
  | none =>
      rw [named, found]
      exact .inl ((by decide : IsBare "sub").append (isBare_nat sub)).shows
  | some known =>
      rw [named, found]
      refine (analysis.role_of_getElem?_namesFrom 0 _ found).imp_right fun ⟨role, other, here, special⟩ => ?_
      have same : other = sub := by
        obtain ⟨bound, there⟩ := List.getElem?_eq_some_iff.mp here
        rw [← there]
        exact List.getElem_range bound
      exact ⟨role, same ▸ special⟩

/-- What the steps of a program write are counted stand-ins, names of roles, or words without double
underscores. -/
theorem RecoveryInput.speaks_plainWords {input : RecoveryInput}
    (actions : ∀ entry ∈ input.catalog.entries, Shows [] entry.2.name)
    (strings : ∀ command ∈ input.program.commands, ∀ text ∈ command.instruction.operand.string?,
      Shows [] text)
    (names : ∀ sub, input.name sub ∈ roleNames ∨ Shows [] (input.name sub)) (sub : Nat) :
    input.Speaks (input.program.body sub) plainWords where
  literal := by
    refine fun command _ _ value pushed => .inr fun word listed => .inr ?_
    rw [List.mem_singleton.mp listed]
    refine Constant.shows_sourceText fun text same => ?_
    unfold Program.instruction at pushed
    split at pushed
    · rename_i found
      refine strings _ (Array.mem_of_getElem? found) text ?_
      rw [pushed, same]
      rfl
    · cases pushed
  action := by
    intro command _ _ _ id argumentCount _
    rw [Recover.actionName, ActionCatalog.find?]
    cases found : input.catalog.entries.lookup id with
    | none => exact .inl (isReserved_unknownAction id)
    | some signature =>
        refine .inr fun word listed => .inr ?_
        obtain ⟨before, after, split, -⟩ := List.lookup_eq_some_iff.mp found
        have entry : (id, signature) ∈ input.catalog.entries := by simp [split]
        rw [List.mem_singleton.mp listed]
        exact actions _ entry
  call := by
    refine fun callee => .inr fun word listed => ?_
    rw [List.mem_singleton.mp listed]
    exact names callee

/-- A routine without counted stand-ins is recovered and shows uncounted marks only, and none if it is
determined. -/
theorem RecoveryInput.shows_routine {input : RecoveryInput} {sub : Nat} {structs : StructTable}
    {attempted : Nat × Except Fault ScriptTree} {marks : List String}
    (speaks : input.Speaks (input.program.body sub) plainWords) (bare : IsBare input.settings.indent)
    (name : some sub ≠ input.layout.globals → Shows [] (input.name sub))
    (attempt : input.attempt sub = .ok attempted)
    (complete : (input.routine structs attempted).placeholderCount = 0)
    (either : uncountedMarks ⊆ marks ∨
      ∀ tree ∈ (input.routine structs attempted).tree?, tree.IsDetermined) :
    (∃ tree, (input.routine structs attempted).outcome = .ok tree ∧ Closes marks tree.text) ∧
      (some (input.routine structs attempted).sub ≠ input.layout.globals →
        Closes marks (input.routine structs attempted).prototype) := by
  unfold RecoveryInput.attempt at attempt
  split at attempt
  · rename_i tree recovered
    cases attempt
    obtain ⟨named, header⟩ := recover_isNamed speaks recovered
    have reshapes := tree.reshapes_cleanup
    have cleaned := reshapes.isNamed named
    have same := header.trans reshapes.header
    obtain ⟨kind, starts, indent⟩ := input.header_start sub
    have role : tree.cleanup.1.kind = input.kind sub := same.kind.trans kind
    have title : tree.cleanup.1.signature.name = input.name sub := (congrArg _ same.signature).trans starts
    have printed : Closes marks { tree.cleanup.1 with structs }.text ∧
        (tree.cleanup.1.kind = .function → Closes marks { tree.cleanup.1 with structs }.prototype) := by
      refine closes_of_placeholderCount ⟨cleaned.label, cleaned.reference, cleaned.name⟩ complete
        (either.imp_right fun determined => determined _ rfl) ?_ fun function => ?_
      · rw [same.indent, indent]
        exact bare
      · rw [title]
        refine name fun globals => ?_
        rw [role, RecoveryInput.kind, if_pos globals] at function
        cases function
    refine ⟨⟨_, rfl, printed.1⟩, fun function => printed.2 ?_⟩
    rw [role]
    exact if_neg function
  · split at attempt
    · cases attempt
    · cases attempt
      cases complete

/-- What a loop collects comes from its steps. -/
theorem exists_of_mem_mapM {α β ε : Type} {step : α → Except ε β} {items : List α}
    {results : List β} (ran : items.mapM step = .ok results) :
    ∀ result ∈ results, ∃ item ∈ items, step item = .ok result := by
  induction items generalizing results with
  | nil =>
      cases ran
      exact fun _ listed => absurd listed List.not_mem_nil
  | cons item items induction =>
      rw [List.mapM_cons] at ran
      cases here : step item with
      | error fault =>
          rw [here] at ran
          cases ran
      | ok first =>
          cases rest : items.mapM step with
          | error fault =>
              rw [here, rest] at ran
              cases ran
          | ok others =>
              rw [here, rest] at ran
              cases ran
              refine List.forall_mem_cons.mpr ⟨⟨item, List.mem_cons_self, here⟩, fun result listed => ?_⟩
              obtain ⟨other, among, found⟩ := induction rest result listed
              exact ⟨other, List.mem_cons_of_mem _ among, found⟩

/-- The routines of a decompiled program are attempted recoveries of subroutines other than the entry stub,
and none of its functions declares the globals. -/
theorem Program.exists_of_decompile (decompiled : program.decompile catalog settings = .ok source) :
    ∃ analysis : Analysis, source.indent = settings.indent ∧
      (∀ routine ∈ source.functions, some routine.sub ≠ analysis.layout.globals) ∧
        ∀ routine ∈ source.routines,
          let input := analysis.recoveryInput program catalog settings (analysis.names program)
          ∃ sub attempted, some sub ≠ analysis.layout.stub ∧ input.attempt sub = .ok attempted ∧
            routine = input.routine source.structs attempted := by
  rw [decompile] at decompiled
  cases analyzed : Analysis.ofProgram program catalog settings with
  | error fault =>
      rw [analyzed] at decompiled
      cases decompiled
  | ok analysis =>
      rw [analyzed] at decompiled
      simp only [bind, Except.bind] at decompiled
      split at decompiled
      · cases decompiled
      · rename_i attempted ran
        cases decompiled
        refine ⟨analysis, rfl, fun routine listed => ?_, fun routine listed => ?_⟩
        · have function := (List.mem_filter.mp listed).2
          exact of_decide_eq_true (Bool.and_eq_true_iff.mp function).2
        · rcases List.mem_append.mp listed with function | globals
          · obtain ⟨pair, collected, rfl⟩ := List.mem_map.mp (List.mem_filter.mp function).1
            obtain ⟨sub, among, attempt⟩ := exists_of_mem_mapM ran pair collected
            exact ⟨sub, pair, of_decide_eq_true (List.mem_filter.mp among).2, attempt, rfl⟩
          · have found := List.mem_of_find?_eq_some (Option.mem_toList.mp globals)
            obtain ⟨pair, collected, rfl⟩ := List.mem_map.mp found
            obtain ⟨sub, among, attempt⟩ := exists_of_mem_mapM ran pair collected
            exact ⟨sub, pair, of_decide_eq_true (List.mem_filter.mp among).2, attempt, rfl⟩

/-- Where neither names of actions nor strings hold double underscores and no stand-in is counted, the
double underscores of a source text begin uncounted marks.  So the text shows no unknown action, no
unresolved jump and no routine that could not be recovered; and it shows no reserved name at all if
printing had nothing to make up for. -/
theorem Program.text_shows_uncountedMarks
    (actions : ∀ entry ∈ catalog.entries, Shows [] entry.2.name)
    (strings : ∀ command ∈ program.commands, ∀ text ∈ command.instruction.operand.string?,
      Shows [] text)
    (bare : IsBare settings.indent) (decompiled : program.decompile catalog settings = .ok source)
    (complete : source.placeholderCount = 0) :
    Shows uncountedMarks source.text ∧ (∀ mark ∈ countedMarks, ¬mark.toList <:+: source.text.toList) ∧
      (source.IsDetermined → Shows [] source.text) := by
  obtain ⟨analysis, indent, functions, attempts⟩ := exists_of_decompile decompiled
  have counts := SourceProgram.placeholderCount_eq_zero_iff.mp complete
  have shown : ∀ {marks}, (uncountedMarks ⊆ marks ∨ source.IsDetermined) → Shows marks source.text := by
    intro marks either
    have routines : ∀ routine ∈ source.routines,
        (∃ tree, routine.outcome = .ok tree ∧ Closes marks tree.text) ∧
          (some routine.sub ≠ analysis.layout.globals → Closes marks routine.prototype) := by
      intro routine listed
      obtain ⟨sub, attempted, inhabited, attempt, rfl⟩ := attempts routine listed
      have names := @Analysis.name_plain program catalog settings analysis
      refine RecoveryInput.shows_routine (RecoveryInput.speaks_plainWords actions strings
        (fun callee => ?_) sub) bare (fun function => ?_) attempt (counts _ listed)
        (either.imp_right fun determined => determined.routines _ listed)
      · exact (names callee).elim .inr fun role => .inl role.1
      · exact (names sub).resolve_right fun role => role.2.elim function inhabited
    refine SourceProgram.shows_text (indent ▸ bare)
      (either.imp (fun included => included (by decide)) fun determined => determined.structs)
      (fun routine among => ?_) fun routine listed => (routines routine listed).1
    exact (routines routine (List.mem_append_left _ among)).2 (functions routine among)
  have uncounted := shown (.inl (List.Subset.refl uncountedMarks))
  exact ⟨uncounted, fun mark counted => not_infix_of_shows uncounted counted, fun determined =>
    shown (.inr determined)⟩

/-- Actions that print, draw a number, and defer their argument. -/
def sampleActions : ActionCatalog :=
  ⟨[(1, .plain "PrintString" .void [.string]), (4, .plain "PrintInteger" .void [.int]),
    (8, .plain "Random" .int [.int]), (9, .plain "ActionDo" .void [.action])]⟩

/-- A number is drawn, kept in a variable and printed. -/
def drawnNumber : Program :=
  .ofCode [.simple .reserve .int, .constant (.int 2), ⟨.action, .void, .action 8 1⟩,
    ⟨.copyDown, .void, .stack (-8) 4⟩, ⟨.moveStack, .void, .offset (-4)⟩, ⟨.copyTop, .void, .stack (-4) 4⟩,
    ⟨.action, .void, .action 4 1⟩, ⟨.moveStack, .void, .offset (-4)⟩, .simple .ret .void] (by simp)

/-- The text shows the variable and no reserved name. -/
theorem text_shows_uncountedMarks_drawnNumber :
    (∀ entry ∈ sampleActions.entries, Shows [] entry.2.name) ∧
      (∀ command ∈ drawnNumber.commands, ∀ text ∈ command.instruction.operand.string?, Shows [] text) ∧
        ∃ source, drawnNumber.decompile sampleActions {} = .ok source ∧ source.placeholderCount = 0 ∧
          source.IsDetermined ∧ Shows [] source.text := by
  have actions : ∀ entry ∈ sampleActions.entries, Shows [] entry.2.name := by decide
  have strings : ∀ command ∈ drawnNumber.commands,
      ∀ text ∈ command.instruction.operand.string?, Shows [] text := by decide
  have shown : (drawnNumber.decompile sampleActions {}).toOption.any (fun source =>
      source.placeholderCount == 0 && decide source.IsDetermined) := by cbv
  cases decompiled : drawnNumber.decompile sampleActions {} with
  | error fault =>
      rw [decompiled] at shown
      cases shown
  | ok source =>
      rw [decompiled] at shown
      have checked : (source.placeholderCount == 0 && decide source.IsDetermined) = true := shown
      obtain ⟨none_counted, nothing_missing⟩ := Bool.and_eq_true_iff.mp checked
      have complete := eq_of_beq none_counted
      have determined := of_decide_eq_true nothing_missing
      obtain ⟨-, -, clean⟩ :=
        Program.text_shows_uncountedMarks actions strings (by decide) decompiled complete
      exact ⟨actions, strings, source, rfl, complete, determined, clean determined⟩

/-- An action is given a deferred argument of two statements, which read as no expression. -/
def deferredPair : Program :=
  .ofCode [⟨.storeState, .void, .state 0 0⟩, .jump .jump 28, .constant (.string "a"),
    ⟨.action, .void, .action 1 1⟩, .constant (.string "b"), ⟨.action, .void, .action 1 1⟩,
    .simple .ret .void, ⟨.action, .void, .action 9 1⟩, .simple .ret .void] (by simp)

/-- No stand-in is counted, and the text shows one. -/
theorem deferredPair_shows_unknownOperand :
    (∀ entry ∈ sampleActions.entries, Shows [] entry.2.name) ∧
      (∀ command ∈ deferredPair.commands, ∀ text ∈ command.instruction.operand.string?, Shows [] text) ∧
        ∃ source, deferredPair.decompile sampleActions {} = .ok source ∧ source.placeholderCount = 0 ∧
          source.text = "void main() \x7b\n    ActionDo(__unknown_operand);\n\x7d\n" ∧
            "__unknown_operand".toList <:+: source.text.toList := by
  refine ⟨by decide, by decide, ?_⟩
  have shown : (deferredPair.decompile sampleActions {}).map
      (fun source => (source.placeholderCount, source.text)) =
        .ok (0, "void main() \x7b\n    ActionDo(__unknown_operand);\n\x7d\n") := by cbv
  cases decompiled : deferredPair.decompile sampleActions {} with
  | error fault =>
      rw [decompiled] at shown
      cases shown
  | ok source =>
      rw [decompiled] at shown
      obtain ⟨count, text⟩ := Prod.mk.inj (Except.ok.inj shown)
      refine ⟨source, rfl, count, text, ?_⟩
      rw [text]
      exact ⟨"void main() \x7b\n    ActionDo(".toList, ");\n\x7d\n".toList, by decide⟩

end Programs

end NwScript
