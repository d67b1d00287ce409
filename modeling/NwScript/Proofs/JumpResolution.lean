import Mathlib.Data.Nat.Find
import NwScript.Proofs.JumpTargets

/-!
# Resolution of jumps

Once positions are recorded, the search finds the instruction at a byte position exactly if there is
one, for every target.  The pass over the jumps then either links each jump to the instruction at its
target, and each instruction to the jumps that lead to it, or stops at the first jump whose target is
no position and names that jump.
-/

namespace NwScript
namespace Jumps

variable {program : Program}

/-- The byte position that an instruction jumps to is the position of an instruction. -/
def Lands (program : Program) (command : Nat) : Prop :=
  ∃ destination < program.commandCount,
    target? program command = some (program.position destination : Int)

theorem isSome_destination?_iff (increasing : Positions.Increasing program) {command : Nat} :
    (destination? program command).isSome ↔ Lands program command := by
  rw [Option.isSome_iff_exists]
  constructor
  · rintro ⟨destination, found⟩
    obtain ⟨_, same, sought⟩ := Option.bind_eq_some_iff.mp found
    obtain ⟨inside, hit⟩ := (commandAt?_eq_some_iff increasing).mp sought
    exact ⟨destination, inside, by rw [same, hit]⟩
  · rintro ⟨destination, inside, lands⟩
    refine ⟨destination, ?_⟩
    rw [destination?, lands, Option.bind_some]
    exact (commandAt?_eq_some_iff increasing).mpr ⟨inside, rfl⟩

theorem allLand_iff (increasing : Positions.Increasing program) :
    AllLand program ↔ ∀ command < program.commandCount, (target? program command).isSome →
      Lands program command := by
  simp only [AllLand, isSome_destination?_iff increasing]

/-- Of all jumps that lead nowhere there is a first one. -/
theorem exists_first_missed (missed : ¬AllLand program) :
    ∃ command < program.commandCount, ∃ target, target? program command = some target ∧
      destination? program command = none ∧
      ∀ earlier < command, (target? program earlier).isSome →
        (destination? program earlier).isSome := by
  classical
  let misses (command : Nat) : Prop := command < program.commandCount ∧
    (target? program command).isSome ∧ destination? program command = none
  have some_miss : ∃ command, misses command := by
    simp only [AllLand, not_forall] at missed
    obtain ⟨command, inside, jumps, nowhere⟩ := missed
    exact ⟨command, inside, jumps, by simpa using nowhere⟩
  obtain ⟨inside, jumps, nowhere⟩ := Nat.find_spec some_miss
  obtain ⟨target, aimed⟩ := Option.isSome_iff_exists.mp jumps
  refine ⟨Nat.find some_miss, inside, target, aimed, nowhere, fun earlier before jumps => ?_⟩
  have lands := Nat.find_min some_miss before
  rw [Option.isSome_iff_ne_none]
  exact fun nowhere => lands ⟨by omega, jumps, nowhere⟩

/-- Linking stops at a jump whose target is no position. -/
theorem runOn_resolveOne_missed (increasing : Positions.Increasing program) {linked : Nat}
    (inside : linked < program.commandCount) {target : Int}
    (aimed : target? program linked = some target)
    (missed : destination? program linked = none) :
    (resolveOne program linked).runOn
        (FlowTable.ofRows program.commandCount (linkedRow program linked)) =
      (.error (.jumpTarget (program.position linked) target),
        FlowTable.ofRows program.commandCount (linkedRow program linked)) := by
  have positions := position_linkedRow program linked
  obtain ⟨offset, jumps, rfl⟩ := Option.map_eq_some_iff.mp aimed
  have nowhere : commandAt? program ((program.position linked : Int) + offset) = none := by
    simpa [destination?, aimed] using missed
  simp only [resolveOne, jumps]
  rw [FlowPass.runOn_bind_ok (FlowPass.runOn_ask (positions linked inside)),
    FlowPass.runOn_bind_ok (FlowPass.runOn_ask (find_eq increasing positions)), nowhere]
  exact FlowPass.runOn_throw _ _

/-- The pass over the jumps stops at the first one whose target is no position. -/
theorem runOn_resolve_missed (increasing : Positions.Increasing program) {first : Nat}
    (inside : first < program.commandCount) {target : Int}
    (aimed : target? program first = some target) (missed : destination? program first = none)
    (before : ∀ earlier < first, (target? program earlier).isSome →
      (destination? program earlier).isSome) :
    (resolve program).runOn
        (FlowTable.ofRows program.commandCount
          (Positions.rowBefore program program.commandCount)) =
      (.error (.jumpTarget (program.position first) target),
        FlowTable.ofRows program.commandCount (linkedRow program first)) := by
  have linking : ((List.range first).forM (resolveOne program)).runOn _ = (.ok (), _) :=
    FlowPass.runOn_forM_range
      (fun linked => FlowTable.ofRows program.commandCount (linkedRow program linked))
      fun command earlier => (runOn_resolveOne increasing (by omega)).mpr
        ⟨before command earlier, rfl⟩
  have behind : program.commandCount = first + (program.commandCount - (first + 1) + 1) := by omega
  have split : program.commandNumbers =
      List.range first ++ first :: List.range' (first + 1) (program.commandCount - (first + 1)) := by
    rw [Program.commandNumbers, List.range_eq_range', List.range_eq_range', ← List.range'_succ]
    conv_lhs => rw [behind, ← List.range'_append_1, Nat.zero_add]
  have order : resolve program = (List.range first).forM (resolveOne program) >>= fun _ =>
      resolveOne program first >>= fun _ =>
        (List.range' (first + 1) (program.commandCount - (first + 1))).forM
          (resolveOne program) := by
    rw [resolve, split]
    exact List.forM_append
  rw [ofRows_rowBefore, order, FlowPass.runOn_bind_ok linking,
    FlowPass.runOn_bind_error (runOn_resolveOne_missed increasing inside aimed missed)]

/-- What the pass over the jumps leaves behind when every jump leads to an instruction: destinations,
and for each instruction the jumps that lead to it. -/
structure AreLinked (program : Program) (table : FlowTable) : Prop where
  /-- A jump leads to the one instruction at its target. -/
  leads : ∀ command < program.commandCount, ∀ target, target? program command = some target →
    ∃! destination, table.destination command = .ok (some destination) ∧
      destination < program.commandCount ∧ (program.position destination : Int) = target
  /-- Other instructions lead nowhere. -/
  stays : ∀ command < program.commandCount, target? program command = none →
    table.destination command = .ok none
  /-- The jumps to an instruction are listed once each, in program order. -/
  listed : ∀ command < program.commandCount, ∃ origins, table.origins command = .ok origins ∧
    origins.Pairwise (· < ·) ∧
      ∀ origin, origin ∈ origins ↔ origin < program.commandCount ∧
        table.destination origin = .ok (some command)

theorem areLinked_resolved (increasing : Positions.Increasing program) (land : AllLand program) :
    AreLinked program (.resolved program) where
  leads := by
    intro command inside target aimed
    obtain ⟨destination, found⟩ := Option.isSome_iff_exists.mp
      (land command inside (by rw [aimed]; rfl))
    have sought : commandAt? program target = some destination := by
      simpa [destination?, aimed] using found
    obtain ⟨known, hit⟩ := (commandAt?_eq_some_iff increasing).mp sought
    refine ⟨destination, ⟨by rw [FlowTable.destination_resolved inside, found], known, hit⟩, ?_⟩
    rintro other ⟨_, alsoKnown, alsoHit⟩
    exact increasing.injective alsoKnown known (by omega)
  stays := by
    intro command inside aimless
    rw [FlowTable.destination_resolved inside, destination?, aimless]
    rfl
  listed := by
    intro command inside
    refine ⟨_, FlowTable.origins_resolved inside, List.pairwise_lt_range.filter _, ?_⟩
    intro origin
    rw [List.mem_filter, List.mem_range, decide_eq_true_iff]
    refine and_congr_right fun known => ?_
    rw [FlowTable.destination_resolved known, Except.ok.injEq]

/-- Where positions increase, the search finds exactly the instruction at a position.  The pass over
the jumps succeeds exactly if every target is the position of an instruction, and then links every
jump both ways; otherwise it names the first jump whose target is no position. -/
theorem resolve_exact {program : Program} {table : FlowTable}
    (placed : (Positions.record program).runOn (.blank program.commandCount) = (.ok (), table)) :
    (∀ target, ∃ found, find program table target = .ok found ∧
      ∀ command, found = some command ↔
        command < program.commandCount ∧ (program.position command : Int) = target) ∧
    (((resolve program).runOn table).1 = .ok () ↔
      ∀ command < program.commandCount, (target? program command).isSome →
        Lands program command) ∧
    (((resolve program).runOn table).1 = .ok () →
      AreLinked program ((resolve program).runOn table).2) ∧
    ∀ fault, ((resolve program).runOn table).1 = .error fault →
      ∃ command < program.commandCount, ∃ target, target? program command = some target ∧
        ¬Lands program command ∧
        (∀ earlier < command, (target? program earlier).isSome → Lands program earlier) ∧
        fault = .jumpTarget (program.position command) target := by
  obtain ⟨increasing, rfl⟩ := Positions.runOn_record.mp placed
  have positions : ∀ command < program.commandCount,
      (FlowTable.ofRows program.commandCount
        (Positions.rowBefore program program.commandCount)).position command =
          .ok (program.position command) := by
    rw [ofRows_rowBefore]
    exact position_linkedRow program 0
  refine ⟨fun target => ⟨_, find_eq increasing positions, fun command =>
    commandAt?_eq_some_iff increasing⟩, ?_⟩
  rw [← allLand_iff increasing]
  by_cases land : AllLand program
  · rw [(runOn_resolve increasing).mpr ⟨land, rfl⟩]
    refine ⟨iff_of_true rfl land, fun _ => areLinked_resolved increasing land, ?_⟩
    rintro fault ⟨⟩
  · obtain ⟨first, inside, target, aimed, missed, before⟩ := exists_first_missed land
    rw [runOn_resolve_missed increasing inside aimed missed before]
    refine ⟨iff_of_false nofun land, nofun, ?_⟩
    rintro _ ⟨⟩
    refine ⟨first, inside, target, aimed, ?_, fun earlier order jumps => ?_, rfl⟩
    · rw [← isSome_destination?_iff increasing, missed]
      exact Bool.false_ne_true
    · exact (isSome_destination?_iff increasing).mp (before earlier order jumps)

/-- A call, a backward jump and a jump into the middle of an instruction, over two subroutines. -/
def astray : Program :=
  .ofNonempty [[⟨13, .jump .call 14⟩, ⟨19, .jump .jump (-6)⟩, ⟨25, .simple .ret .void⟩],
    [⟨27, .jump .jumpZero 6⟩, ⟨33, .jump .jump (-7)⟩, ⟨39, .simple .ret .void⟩]] (by simp)

theorem resolve_exact_astray :
    (Positions.record astray).runOn (.blank astray.commandCount) =
      (.ok (), FlowTable.ofRows 6 (Positions.rowBefore astray 6)) ∧
    ((resolve astray).runOn (FlowTable.ofRows 6 (Positions.rowBefore astray 6))).1 =
      .error (.jumpTarget 33 26) ∧
    ∃ command < astray.commandCount, ∃ target, target? astray command = some target ∧
      ¬Lands astray command ∧
      (∀ earlier < command, (target? astray earlier).isSome → Lands astray earlier) ∧
      Fault.jumpTarget 33 26 = .jumpTarget (astray.position command) target :=
  have stops : ((resolve astray).runOn (FlowTable.ofRows 6 (Positions.rowBefore astray 6))).1 =
      .error (.jumpTarget 33 26) := by rfl
  have placed : (Positions.record astray).runOn (.blank astray.commandCount) =
      (.ok (), FlowTable.ofRows 6 (Positions.rowBefore astray 6)) := by rfl
  ⟨placed, stops, (resolve_exact placed).2.2.2 _ stops⟩

end Jumps
end NwScript
