import NwScript.Proofs.CallFrames
import NwScript.Proofs.PrototypeChanges

/-!
# Coherent prototypes

Declared parameters and marks follow from slots, groups and result.  A record that keeps them has to set
them anew whenever it writes one of these.  Installing a prototype does so, typing a slot groups the slots
again, and a new result leaves the parameters alone.  Groups may overlap, repeat or overrun the slots; each
slot is read once all the same.
-/

namespace NwScript

namespace Ty

/-- What a parameter slot holds: a single value of one slot, or something undetermined. -/
def IsPlain (type : Ty) : Prop :=
  type = invalid ∨ type.IsCell

instance (type : Ty) : Decidable type.IsPlain :=
  inferInstanceAs (Decidable (_ ∨ _))

/-- The members of a type, or the type itself if it has none. -/
def parts (type : Ty) : List Ty :=
  type.members?.getD [type]

theorem IsPlain.parts {type : Ty} (plain : type.IsPlain) : type.parts = [type] := by
  rcases plain with rfl | cell
  · rfl
  · cases type with
    | simple code =>
        cases code with
        | vector => cases cell
        | _ => rfl
    | aggregate members => exact cell.elim

theorem IsPlain.flatten {type : Ty} (plain : type.IsPlain) :
    type.flatten = [type].filter isKnown := by
  rcases plain with rfl | cell
  · rfl
  · have known : type.isKnown = true := by
      apply decide_eq_true
      rintro rfl
      cases cell
    rw [cell.flatten, List.filter_cons_of_pos known, List.filter_nil]

theorem parts_ofMembers (members : List Ty) : (ofMembers members).parts = members := by
  rw [parts, members?_ofMembers]
  rfl

/-- Flattening leaves out what is undetermined. -/
theorem flattenAll_of_plain {types : List Ty} (plain : ∀ type ∈ types, type.IsPlain) :
    flattenAll types = types.filter isKnown := by
  induction types with
  | nil => rfl
  | cons type types induction =>
      obtain ⟨here, others⟩ := List.forall_mem_cons.mp plain
      rw [flattenAll_cons, here.flatten, induction others, ← List.filter_append,
        List.singleton_append]

theorem flatten_ofMembers_of_plain {types : List Ty} (plain : ∀ type ∈ types, type.IsPlain) :
    (ofMembers types).flatten = types.filter isKnown :=
  (flatten_of_members? (members?_ofMembers types)).trans (flattenAll_of_plain plain)

end Ty

namespace Prototype

section Reading

variable {part : List Ty}

/-- The members of a declared parameter are the slots that it covers, the last one first. -/
theorem reverse_parts_declaredType (some_slot : part ≠ []) (plain : ∀ type ∈ part, type.IsPlain) :
    (declaredType part).parts.reverse = part := by
  match part with
  | [type] =>
      have single := (plain type (List.mem_singleton_self type)).parts
      rw [declaredType, single, List.reverse_singleton]
  | first :: second :: rest =>
      rw [declaredType_of_several (by simp), Ty.parts_ofMembers, List.reverse_reverse]

theorem reverse_flatten_declaredType (some_slot : part ≠ [])
    (plain : ∀ type ∈ part, type.IsPlain) :
    (declaredType part).flatten.reverse = part.filter Ty.isKnown := by
  match part with
  | [type] =>
      have single := (plain type (List.mem_singleton_self type)).flatten
      rw [declaredType, single]
      cases here : type.isKnown <;> simp [here]
  | first :: second :: rest =>
      rw [declaredType_of_several (by simp), Ty.flatten_ofMembers_of_plain, List.filter_reverse,
        List.reverse_reverse]
      exact fun type listed => plain type (List.mem_reverse.mp listed)

variable {proto : Prototype} (plain : ∀ type ∈ proto.slots, type.IsPlain)

include plain

/-- Whatever is read off each part that a parameter covers is read off the slots. -/
theorem flatMap_params {read : Ty → List Ty} {kept : Ty → Bool}
    (each : ∀ part : List Ty, part ≠ [] → (∀ type ∈ part, type.IsPlain) →
      read (declaredType part) = part.filter kept) :
    proto.params.flatMap read = proto.slots.filter kept := by
  have whole := flatten_coveredFrom proto.groups 0 proto.slots
  calc proto.params.flatMap read
      = proto.covered.flatMap fun part => read (declaredType part) := by
        rw [params_eq_map, List.flatMap_map]
    _ = proto.covered.flatMap fun part => part.filter kept := by
        refine List.flatMap_congr fun part listed => each part (coveredFrom_ne_nil part listed) ?_
        intro type inside
        apply plain
        rw [← whole]
        exact List.mem_flatten_of_mem listed inside
    _ = proto.covered.flatten.filter kept := by rw [List.filter_flatten, List.flatMap_def]
    _ = proto.slots.filter kept := by rw [covered, whole]

/-- The members of the parameters are the slots. -/
theorem flatMap_parts_params :
    (proto.params.flatMap fun param => param.parts.reverse) = proto.slots := by
  have read : (proto.params.flatMap fun param => param.parts.reverse) =
      proto.slots.filter fun _ => true :=
    flatMap_params plain fun part some_slot plain => by
      rw [List.filter_eq_self.mpr fun _ _ => rfl]
      exact reverse_parts_declaredType some_slot plain
  rw [read, List.filter_eq_self]
  exact fun _ _ => rfl

/-- Flattened parameters are the slots that are determined. -/
theorem flatMap_flatten_params :
    (proto.params.flatMap fun param => param.flatten.reverse) = proto.slots.filter Ty.isKnown :=
  flatMap_params plain fun _ => reverse_flatten_declaredType

end Reading

/-- Something that is written to a prototype. -/
inductive Writing where
  /-- Slots, groups and a result are installed. -/
  | install (slots : List Ty) (groups : List (Nat × Nat)) (returnType : Ty)
      (returnDepth : Option Nat)
  /-- The type of a slot or of the result is learned. -/
  | learn (lesson : Lesson)
  deriving DecidableEq, Repr

/-- The types that are written to slots are those of single slots, or undetermined. -/
def Writing.IsPlain : Writing → Prop
  | install slots _ _ _ => ∀ type ∈ slots, type.IsPlain
  | learn (.param _ type) => type.IsPlain
  | learn (.result _) => True

/-- A prototype is installed. -/
def Writing.isInstall : Writing → Bool
  | install _ _ _ _ => true
  | learn _ => false

/-- The prototype behind something that is written to it. -/
def write (proto : Prototype) : Writing → Prototype
  | .install slots groups returnType returnDepth =>
      proto.install slots groups returnType returnDepth
  | .learn lesson => proto.learn lesson

/-- The prototype behind a sequence of writings. -/
def writeAll (proto : Prototype) (writings : List Writing) : Prototype :=
  writings.foldl write proto

/-- The marks say what is typed. -/
structure IsMarked (proto : Prototype) : Prop where
  /-- Whether every declared parameter is fully typed. -/
  params : proto.flags.paramsTyped = true ↔ ∀ type ∈ proto.params, type.isFullyTyped = true
  /-- Whether the result is. -/
  result : proto.flags.returnTyped = true ↔ proto.returnType.isFullyTyped = true

section Writing

variable {proto : Prototype}

theorem isMarked_refreshFlags (proto : Prototype) : proto.refreshFlags.IsMarked where
  params := List.all_eq_true
  result := Iff.rfl

/-- Marks that are right stay right, and installing makes them right. -/
theorem isMarked_write (writing : Writing) (right : writing.isInstall = true ∨ proto.IsMarked) :
    (proto.write writing).IsMarked := by
  cases writing with
  | install slots groups returnType returnDepth => exact isMarked_refreshFlags _
  | learn lesson =>
      have marked := right.resolve_left Bool.false_ne_true
      show (proto.learn lesson).IsMarked
      rcases proto.learn_cases lesson with same | ⟨slots, returnType, changed⟩
      · rwa [same]
      · rw [changed]
        exact isMarked_refreshFlags _

/-- Nothing can be learned about a new prototype. -/
theorem learn_new (lesson : Lesson) : ({} : Prototype).learn lesson = {} := by
  cases lesson with
  | param slot type => rfl
  | result type =>
      have typed : ({} : Prototype).returnType.isFullyTyped = true := rfl
      rw [learn, refineReturn, typed, Bool.not_true, Bool.and_false, Bool.false_and]
      rfl

theorem writeAll_new_of_forall_not {writings : List Writing}
    (none_installs : ∀ writing ∈ writings, writing.isInstall = false) :
    ({} : Prototype).writeAll writings = {} := by
  induction writings with
  | nil => rfl
  | cons writing writings induction =>
      obtain ⟨here, others⟩ := List.forall_mem_cons.mp none_installs
      cases writing with
      | install => cases here
      | learn lesson =>
          show (({} : Prototype).learn lesson).writeAll writings = {}
          rw [learn_new, induction others]

theorem isMarked_writeAll {writings : List Writing}
    (right : (∃ writing ∈ writings, writing.isInstall = true) ∨ proto.IsMarked) :
    (proto.writeAll writings).IsMarked := by
  induction writings generalizing proto with
  | nil =>
      rcases right with ⟨_, listed, _⟩ | marked
      · cases listed
      · exact marked
  | cons writing writings induction =>
      show ((proto.write writing).writeAll writings).IsMarked
      apply induction
      rcases right with ⟨installing, listed, installs⟩ | marked
      · rcases List.mem_cons.mp listed with rfl | later
        · exact .inr (isMarked_write installing (.inl installs))
        · exact .inl ⟨installing, later, installs⟩
      · exact .inr (isMarked_write writing (.inr marked))

/-- The marks of a prototype are right exactly if it has been installed. -/
theorem isMarked_writeAll_new_iff (writings : List Writing) :
    (({} : Prototype).writeAll writings).IsMarked ↔
      ∃ writing ∈ writings, writing.isInstall = true := by
  constructor
  · intro marked
    by_contra none_installs
    rw [writeAll_new_of_forall_not fun writing listed => Bool.eq_false_iff.mpr fun installs =>
      none_installs ⟨writing, listed, installs⟩] at marked
    exact Bool.false_ne_true (marked.result.mpr rfl)
  · exact fun installs => isMarked_writeAll (.inl installs)

/-- Typing a slot leaves every slot alone but one that is undetermined. -/
theorem getElem?_refineParam {slot index : Nat} {type current : Ty}
    (here : proto.slots[index]? = some current) (settled : current.isKnown = true ∨ index ≠ slot) :
    (proto.refineParam slot type).2.slots[index]? = some current := by
  rw [refineParam]
  split
  · rename_i found listed
    split
    · rename_i changes
      have apart : index ≠ slot := by
        refine settled.elim (fun known same => ?_) id
        rw [← same, here, Option.some.injEq] at listed
        simp [← listed, known] at changes
      show (proto.slots.set slot type)[index]? = some current
      rw [List.getElem?_set_ne apart.symm, here]
    · exact here
  · exact here

theorem plain_write {writing : Writing} (plain : ∀ type ∈ proto.slots, type.IsPlain)
    (written : writing.IsPlain) : ∀ type ∈ (proto.write writing).slots, type.IsPlain := by
  cases writing with
  | install slots groups returnType returnDepth => exact written
  | learn lesson =>
      cases lesson with
      | param slot type =>
          rw [write, learn, refineParam]
          split
          · split
            · intro other listed
              rcases List.mem_or_eq_of_mem_set listed with old | rfl
              · exact plain other old
              · exact written
            · exact plain
          · exact plain
      | result type =>
          rw [write, learn, refineReturn]
          split <;> exact plain

theorem plain_writeAll {writings : List Writing} (plain : ∀ type ∈ proto.slots, type.IsPlain)
    (written : ∀ writing ∈ writings, writing.IsPlain) :
    ∀ type ∈ (proto.writeAll writings).slots, type.IsPlain := by
  induction writings generalizing proto with
  | nil => exact plain
  | cons writing writings induction =>
      obtain ⟨here, others⟩ := List.forall_mem_cons.mp written
      exact induction (plain_write plain here) others

end Writing

/-- A prototype that keeps its declared parameters. -/
structure Record extends Prototype where
  /-- The declared parameters as they were set last. -/
  declared : List Ty := []
  deriving DecidableEq, Repr

namespace Record

/-- Set the marks from the declared parameters and the result. -/
def refresh (record : Record) : Record :=
  { record with
    flags :=
      { record.flags with
        paramsTyped := record.declared.all Ty.isFullyTyped
        returnTyped := record.returnType.isFullyTyped } }

/-- The record behind something that is written to it: parameters are declared when a prototype is
installed and when a slot is typed. -/
def write (record : Record) : Writing → Record
  | .install slots groups returnType returnDepth =>
      refresh
        { record with
          slots := slots
          groups := groups
          returnType := returnType
          returnDepth := returnDepth
          status := .done
          declared := paramsFrom groups 0 slots }
  | .learn (.param slot type) =>
      match record.slots[slot]? with
      | some current =>
          if !current.isKnown && type.isKnown && type.slots = 1 then
            refresh
              { record with
                slots := record.slots.set slot type
                declared := paramsFrom record.groups 0 (record.slots.set slot type) }
          else
            record
      | none => record
  | .learn (.result type) =>
      if type.slots = record.returnType.slots && !record.returnType.isFullyTyped &&
          type.isFullyTyped then
        refresh { record with returnType := type }
      else
        record

/-- The record behind a sequence of writings. -/
def writeAll (record : Record) (writings : List Writing) : Record :=
  writings.foldl write record

/-- A record of a prototype with the declared parameters that it has. -/
def ofPrototype (proto : Prototype) : Record :=
  { proto with declared := proto.params }

theorem ofPrototype_new : ofPrototype {} = {} := by
  rw [ofPrototype, params, paramsFrom]

/-- Writing keeps the declared parameters right. -/
theorem write_ofPrototype (proto : Prototype) (writing : Writing) :
    (ofPrototype proto).write writing = ofPrototype (proto.write writing) := by
  cases writing with
  | install slots groups returnType returnDepth => rfl
  | learn lesson =>
      cases lesson with
      | param slot type =>
          simp only [write, Prototype.write, learn, refineParam, ofPrototype]
          cases proto.slots[slot]? with
          | none => rfl
          | some current => simp only []; split <;> rfl
      | result type =>
          rw [Prototype.write, learn, refineReturn, apply_ite Prod.snd, apply_ite ofPrototype]
          rfl

theorem writeAll_ofPrototype (proto : Prototype) (writings : List Writing) :
    (ofPrototype proto).writeAll writings = ofPrototype (proto.writeAll writings) := by
  induction writings generalizing proto with
  | nil => rfl
  | cons writing writings induction =>
      show ((ofPrototype proto).write writing).writeAll writings = _
      rw [write_ofPrototype, induction]
      rfl

end Record

/-- However a new prototype is written, a record that keeps the declared parameters keeps those that the
groups make of the slots.  The marks say what is typed from the first installed prototype on, and nothing
can be learned before.  Typing a slot leaves all determined slots alone.  If single slots are written, the
members of the parameters, the last one first, are the slots one after another, and all that flattening
leaves out are the undetermined ones. -/
theorem writeAll_keeps_coherent (writings : List Writing) :
    let reached := ({} : Prototype).writeAll writings
    ({} : Record).writeAll writings = .ofPrototype reached ∧
      (reached.IsMarked ↔ ∃ writing ∈ writings, writing.isInstall = true) ∧
      ((∀ writing ∈ writings, writing.isInstall = false) → reached = {}) ∧
      (∀ slot type index current, reached.slots[index]? = some current →
        current.isKnown = true ∨ index ≠ slot →
          (reached.refineParam slot type).2.slots[index]? = some current) ∧
      ((∀ writing ∈ writings, writing.IsPlain) →
        (reached.params.flatMap fun param => param.parts.reverse) = reached.slots ∧
        (reached.params.flatMap fun param => param.flatten.reverse) =
          reached.slots.filter Ty.isKnown) := by
  intro reached
  have kept : ({} : Record).writeAll writings = .ofPrototype reached := by
    rw [← Record.ofPrototype_new, Record.writeAll_ofPrototype]
  refine ⟨kept, isMarked_writeAll_new_iff writings,
    writeAll_new_of_forall_not, fun _ _ _ _ => getElem?_refineParam, fun written => ?_⟩
  have plain : ∀ type ∈ reached.slots, type.IsPlain :=
    plain_writeAll (fun _ listed => absurd listed List.not_mem_nil) written
  exact ⟨flatMap_parts_params plain, flatMap_flatten_params plain⟩

/-- Three slots with groups that overlap and overrun them, whose middle slot is typed afterwards. -/
theorem writeAll_keeps_coherent_overlapping :
    let writings : List Writing :=
      [.install [.int, .invalid, .float] [(1, 2), (0, 2), (2, 7)] .invalid (some 0),
        .learn (.param 1 .object)]
    (∀ writing ∈ writings, writing.IsPlain) ∧
      (({} : Prototype).writeAll writings).IsMarked ∧
      ((({} : Prototype).writeAll writings).params.flatMap fun param => param.parts.reverse) =
        [.int, .object, .float] := by
  intro writings
  have written : ∀ writing ∈ writings, writing.IsPlain := by
    intro writing listed
    rcases List.mem_pair.mp listed with rfl | rfl
    · exact (by decide : ∀ type ∈ [Ty.int, .invalid, .float], type.IsPlain)
    · exact (by decide : Ty.object.IsPlain)
  obtain ⟨_, marked, _, _, read⟩ := writeAll_keeps_coherent writings
  refine ⟨written, marked.mpr ⟨_, List.mem_cons_self, rfl⟩, ?_⟩
  rw [(read written).1]
  rfl

/-- A new prototype has neither mark, though all of its parameters and its result are fully typed, and a
result that is learned then is not taken. -/
theorem writeAll_unmarked_new :
    let reached := ({} : Prototype).writeAll [.learn (.result .int)]
    (reached.params.all Ty.isFullyTyped = true ∧ reached.flags.paramsTyped = false) ∧
      reached.returnType.isFullyTyped = true ∧ reached.flags.returnTyped = false := by
  have new : ({} : Prototype).writeAll [.learn (.result .int)] = {} :=
    writeAll_new_of_forall_not fun writing listed => by
      rw [List.mem_singleton.mp listed, Writing.isInstall]
  intro reached
  rw [show reached = {} from new, params, paramsFrom]
  exact ⟨⟨rfl, rfl⟩, rfl, rfl⟩

end Prototype
end NwScript
