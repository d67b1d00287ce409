import NwScript.Proofs.StructuredRecovery
import NwScript.SourceProgram

/-!
# The round trip of structured code

The code of structured statements is decompiled to the same statements, with nothing missing and nothing
to tidy up: the code stands alone outside of every scope, so all scopes are over where it ends, and the
nodes below the root are clean.
-/

namespace NwScript
namespace Structured

open Recover

section Run

variable {input : RecoveryInput} {body : List Structured} {closing : String}

/-- No jump comes behind the statements. -/
theorem opcode_ne_jump_of_behind {program : Program} (alone : program.IsAlone (routine body closing))
    {command : Nat} (behind : (codes body).length ≤ command) (inside : command < program.commandCount) :
    program.opcode command ≠ .jump := by
  have print := (spans_main alone).right
  rw [Nat.zero_add, code] at print
  rw [alone.commandCount, length_routine] at inside
  obtain rfl | rfl | rfl : command = (codes body).length ∨ command = (codes body).length + 1 ∨
      command = (codes body).length + 2 := by omega
  · rw [Program.opcode, print.head.1]
    exact Opcode.noConfusion
  · rw [Program.opcode, print.tail.head.1]
    exact Opcode.noConfusion
  · rw [opcode_last alone]
    exact Opcode.noConfusion

/-- The recovery begins with an empty body on a frame of variables. -/
theorem between_start {body : Body} {recovery : Recovery}
    (fresh : RecoveryInput.IsFresh recovery body) (position : Nat) :
    Between input recovery.stack [] position recovery where
  going := fresh.going
  settled := fresh.settled
  direct := fresh.direct
  owed := fresh.owed
  stack := rfl
  framed := fresh.known
  uncut := fresh.hasNoDefaults input.catalog
  scopes := ⟨[], fresh.outside, fun _ listed => absurd listed List.not_mem_nil⟩

/-- The return ends the recovery outside of every scope. -/
theorem IsSetting.visits_return (setting : IsSetting input body closing) {position : Nat}
    {base : SlotStack StackEntry} {before : Recovery} (between : Between input base [] position before)
    (place : input.program.position ((codes body).length + 2) = position)
    (stays : Stays before.tree [] position) :
    Visits input ((codes body).length + 2) 1 before
      { before with scopes := [], position, track := none, finished := true } := by
  have count := setting.alone.commandCount
  rw [length_routine] at count
  have inside : (codes body).length + 2 < input.program.commandCount := by omega
  have closed : IsSealed input.program ((codes body).length + 2) ((codes body).length + 2 + 1) :=
    fun origin behind early => absurd early (by omega)
  let entered : Recovery := { before with scopes := [], position }
  have opens : Runs (openLoops input ((codes body).length + 2)) entered () entered :=
    setting.openLoops_runs inside closed place.symm
  have last : input.nextLive ((codes body).length + 2) = .ok none := by
    rw [RecoveryInput.nextLive_eq setting.alone setting.live (by rw [length_routine]; omega),
      if_neg (by rw [length_routine]; omega)]
  have free : ¬before.pendingReturn.isSome = true := by
    rw [between.owed]
    exact Bool.false_ne_true
  have executed (track : Option StepTrack) :
      execute input ((codes body).length + 2) track =
        leaveSubroutine input ((codes body).length + 2) := by
    have returns := opcode_last setting.alone
    rw [Program.opcode] at returns
    simp only [execute, returns]
  refine .single between.going (setting.live.alive _ inside) (visit_runs ?_ opens ?_)
  · rw [place]
    exact between.closes stays
  · rw [executed]
    unfold leaveSubroutine
    exact (Runs.reads _).bind (Runs.ite_pos rfl ((Runs.lift last _).bind
      (Runs.ite_neg free (Runs.changes _ _))))

/-- The nodes of the outermost body are some statements. -/
def Holds (tree : ScriptTree) (body : List Structured) : Prop :=
  ∃ outermost, tree.node ScriptTree.root = .block outermost ∧ Reads tree 1 body outermost.children

/-- The recovery of the code ends with the statements. -/
theorem IsSetting.exists_run (setting : IsSetting input body closing) (filled : AllFilled body)
    (function : input.kind 0 = .function) :
    ∃ recovery, input.run 0 = .ok recovery ∧ recovery.tree.Uncut input.catalog ∧
      recovery.tree.signature = (input.start 0).tree.signature ∧
        Holds recovery.tree (body ++ [.print closing]) := by
  obtain ⟨outermost, fresh⟩ := RecoveryInput.exists_isFresh function
  have root : (input.start 0).tree.node ScriptTree.root = .block outermost := by
    simp [ScriptTree.node, fresh.nodes, ScriptTree.root]
  have size : (input.start 0).tree.size = 1 := by simp [ScriptTree.size, fresh.nodes]
  have enclosed (last : Nat) : Enclosed (input.start 0).tree [] last :=
    ⟨⟨outermost, root⟩, fun _ listed => absurd listed List.not_mem_nil,
      fun _ listed => absurd listed List.not_mem_nil⟩
  have spans := spans_main setting.alone
  have ends := isStart_end setting.alone
  have closed : IsSealed input.program 0 (0 + (codes body).length) := by
    intro origin behind inside jumps
    exact absurd jumps (opcode_ne_jump_of_behind setting.alone (by omega) inside)
  have end_closed : IsSealed input.program (0 + (codes body).length)
      (0 + (codes body).length + 2) := by
    intro origin behind inside jumps
    exact absurd jumps (opcode_ne_jump_of_behind setting.alone (by omega) inside)
  rw [← Nat.zero_add (codes body).length] at ends
  obtain ⟨middle, children, first⟩ := setting.recovers_codes body filled spans.left closed ends
    (between_start fresh _) (enclosed _)
  obtain ⟨last, others, second⟩ := setting.written_print spans.right end_closed first.between
    ((enclosed _).gains first.gains)
  have written := first.append second (enclosed 0).innermost_inside
  have place : input.program.position ((codes body).length + 2) =
      Instruction.headerSize + codeSize (codes body) + codeSize (code (.print closing)) := by
    have behind := spans.behind
    rwa [Nat.zero_add, length_main, main, codeSize_append, ← Nat.add_assoc] at behind
  have returns := setting.visits_return written.between place
    (((enclosed _).gains written.gains).stays (Nat.lt_succ_self _))
  rw [← Nat.zero_add ((codes body).length + 2)] at returns
  have visits := (written.visits.append returns).runs
  have commands : List.range' 0 ((codes body).length + 2 + 1) = input.program.body 0 := by
    rw [setting.alone.body, List.range_eq_range', length_routine]
  rw [commands] at visits
  have filled_root : last.tree.node ScriptTree.root =
      ((input.start 0).tree.node ScriptTree.root).mapBody (Body.addingAll (children ++ others)) :=
    written.gains.node_self (enclosed 0).innermost_inside
  rw [root] at filled_root
  refine ⟨_, run_eq_ok visits (complete_outside rfl ?_ written.between.owed), written.between.uncut,
    written.gains.signature, outermost.addingAll (children ++ others), filled_root, ?_⟩
  · show (last.tree.node ScriptTree.root).isSwitch = false
    rw [filled_root]
    rfl
  · have reads := written.reads
    rw [size] at reads
    have all : (outermost.addingAll (children ++ others)).children = children ++ others := by
      rw [Body.addingAll, fresh.children, List.nil_append]
    rw [all]
    exact reads

end Run

section Holding

variable {tree : ScriptTree} {body : List Structured}

/-- Statements are held by the nodes alone. -/
theorem Holds.congr (holds : Holds tree body) {other : ScriptTree} (same : other.nodes = tree.nodes) :
    Holds other body := by
  have node : ∀ id, other.node id = tree.node id := by
    intro id
    rw [ScriptTree.node, ScriptTree.node, same]
  obtain ⟨outermost, root, reads⟩ := holds
  refine ⟨outermost, (node _).trans root, reads.transfer ⟨?_, fun id _ _ => node id⟩⟩
  rw [ScriptTree.size, ScriptTree.size, same]

theorem Holds.statements (holds : Holds tree body) :
    tree.statements = Structured.statements body := by
  obtain ⟨outermost, root, reads⟩ := holds
  have children : tree.children ScriptTree.root = outermost.children := by
    rw [ScriptTree.children, root]
    rfl
  rw [ScriptTree.statements, ScriptTree.statementsOf, children]
  exact reads.pairElse_statements fun node _ => Nat.le_add_right _ _

theorem Holds.clean (holds : Holds tree body) : IsCleanBelow tree ScriptTree.root := by
  obtain ⟨outermost, root, reads⟩ := holds
  have children : tree.children ScriptTree.root = outermost.children := by
    rw [ScriptTree.children, root]
    rfl
  have lines := reads.clean
  refine clean_walkFrom ⟨?_, by rw [root]; rfl, by rw [root]; rfl⟩ fun child listed => ?_
  · rw [children]
    exact fun child listed => (lines child listed).1
  · rw [root, children] at listed
    exact (lines child listed).2

end Holding

section Program

variable {input : RecoveryInput} {body : List Structured} {closing : String}

/-- Without slots left by a caller there are no parameters. -/
theorem params_start (empty : ∀ sub, HasNoSlots (input.protos.getD sub {})) (sub : Nat) :
    (input.start sub).tree.signature.params = [] := by
  unfold RecoveryInput.start
  split
  · rfl
  · split
    · rfl
    · rename_i proto found
      have bare := empty sub
      rw [HasNoSlots, Array.getD_eq_getD_getElem?, found, Option.getD_some] at bare
      have params : proto.params = [] := by
        rw [Prototype.params, bare, Prototype.paramsFrom]
      simp [Frame.ofProto, params, Frame.ofParams]

/-- The code is recovered as its statements, and nothing is left to tidy up. -/
theorem IsSetting.exists_attempt (setting : IsSetting input body closing) (filled : AllFilled body)
    (function : input.kind 0 = .function)
    (empty : ∀ sub, HasNoSlots (input.protos.getD sub {})) :
    ∃ tree, input.attempt 0 = .ok (0, .ok tree) ∧ Holds tree (body ++ [.print closing]) ∧
      tree.signature.params = [] := by
  obtain ⟨recovery, ran, uncut, signature, holds⟩ := setting.exists_run filled function
  have named : Holds recovery.tree.named (body ++ [.print closing]) := holds.congr rfl
  refine ⟨recovery.tree.named, ?_, named, ?_⟩
  · have recovered : input.recover 0 = .ok recovery.tree.named := by
      rw [RecoveryInput.recover, ran]
      exact congrArg Except.ok (RecoveryInput.finish_eq_named uncut)
    rw [RecoveryInput.attempt, recovered]
    dsimp only
    rw [cleanup_eq_self named.clean]
  · have kept : recovery.tree.named.signature = recovery.tree.signature := rfl
    rw [kept, signature, params_start empty]

/-- Structured code is decompiled to the statements it was made of, without failures and without
stand-ins. -/
theorem decompile_routine (catalog : ActionCatalog) (settings : Settings) {body : List Structured}
    {closing : String} (knows : Knows catalog) (filled : AllFilled body)
    (short : codeSize (routine body closing) < 2 ^ 31) :
    let program := Program.ofCode (routine body closing) (routine_ne_nil body closing)
    ∃ source main tree, program.decompile catalog settings = .ok source ∧
      source.failureCount = 0 ∧ source.placeholderCount = 0 ∧
        source.function? source.main = some main ∧ main.outcome = .ok tree ∧
          tree.statements = statements (body ++ [.print closing]) := by
  intro program
  have alone : program.IsAlone (routine body closing) := Program.isAlone_ofCode _ _
  obtain ⟨analysis, analyzed, live, layout, empty⟩ := exists_ofProgram_routine alone knows settings
  let input := analysis.recoveryInput program catalog settings (analysis.names program)
  have setting : IsSetting input body closing := ⟨alone, live, knows, short⟩
  have function : input.kind 0 = .function := by
    have globals : input.layout.globals = none := congrArg Layout.globals layout
    rw [RecoveryInput.kind, globals]
    rfl
  obtain ⟨tree, attempted, holds, no_params⟩ := setting.exists_attempt filled function empty
  have attempts : (program.subroutines.filter fun sub => some sub ≠ analysis.layout.stub).mapM
      input.attempt = .ok [(0, .ok tree)] := by
    have subroutines : program.subroutines = [0] := by
      rw [Program.subroutines, alone.subroutineCount]
      rfl
    rw [subroutines, layout]
    show [0].mapM input.attempt = _
    rw [List.mapM_cons, attempted]
    rfl
  let structs : StructTable := tree.declaredTypes.foldl StructTable.register .empty
  let shown : ScriptTree := { tree with structs }
  have shows : Holds shown (body ++ [.print closing]) := holds.congr rfl
  let main : SourceRoutine := input.routine structs (0, .ok tree)
  refine ⟨{ functions := [main], globals := none, structs, main := 0, indent := settings.indent },
    main, shown, ?_, rfl, ?_, rfl, rfl, shows.statements⟩
  · rw [Program.decompile, analyzed]
    simp only [bind, Except.bind]
    rw [attempts]
    simp only [pure, Except.pure, layout]
    have same : ([(0, Except.ok tree)] : List (Nat × Except Fault ScriptTree)).filterMap
        (·.2.toOption) = [tree] := rfl
    rw [same, List.flatMap_singleton]
    rfl
  · show shown.placeholderCount + 0 = 0
    rw [placeholderCount_eq_zero shows.clean no_params]

/-- An else branch that ends with a branch, where the loop around both ends. -/
def nested : List Structured :=
  [.loop [.branchElse [.print "one"] [.print "two", .branch [.print "three"]]], .print "four"]

theorem decompile_routine_nested :
    let catalog : ActionCatalog :=
      ⟨[(0, .plain "Random" .int [.int]), (1, .plain "PrintString" .void [.string])]⟩
    let program := Program.ofCode (routine nested "end") (routine_ne_nil nested "end")
    Knows catalog ∧ AllFilled nested ∧ codeSize (routine nested "end") < 2 ^ 31 ∧
      ∃ source main tree, program.decompile catalog {} = .ok source ∧
        source.failureCount = 0 ∧ source.placeholderCount = 0 ∧
          source.function? source.main = some main ∧ main.outcome = .ok tree ∧
            tree.statements =
              [.whileLoop condition [.branchElse condition [printing "one"]
                [printing "two", .branch condition [printing "three"]]],
                printing "four", printing "end"] := by
  intro catalog program
  have knows : Knows catalog := ⟨rfl, rfl⟩
  have filled : AllFilled nested := by simp [nested, AllFilled, Filled]
  have short : codeSize (routine nested "end") < 2 ^ 31 := by decide
  exact ⟨knows, filled, short, decompile_routine catalog {} knows filled short⟩

end Program

end Structured
end NwScript
