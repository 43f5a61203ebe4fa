import BytecodeToC.Proofs.Assembled
import Mathlib.Data.List.Nodup

/-!
The C names of locals. Generated names tell locals apart, and a name that the program gives is never
of the generated form, so that in an assembled listing no two locals share a name.
-/

namespace BytecodeToC

open Result

theorem StackType.localLetter_injective {type other : StackType}
    (same : type.localLetter = other.localLetter) : type = other := by
  cases type <;> cases other <;> simp_all [localLetter]

namespace LocalName

theorem toList_generated (slot : Slot) (type : StackType) :
    (generated slot type).toList =
      type.localLetter :: 'l' :: 'o' :: 'c' :: 'a' :: 'l' :: 's' :: '_' ::
        (Nat.toDigits 10 slot.toNat ++ ['_']) := by
  simp [generated]

theorem generated_injective {slot other : Slot} {type kind : StackType}
    (same : generated slot type = generated other kind) : (slot, type) = (other, kind) := by
  have lists := congrArg String.toList same
  simp only [toList_generated, List.cons.injEq, List.append_cancel_right_eq, true_and] at lists
  obtain ⟨letters, digits⟩ := lists
  have numbers := congrArg (fun given => Nat.ofDigitChars 10 given 0) digits
  have slots : slot.toNat = other.toNat := by simpa using numbers
  rw [UInt16.toNat_inj.mp slots, StackType.localLetter_injective letters]

theorem looksGenerated_generated (slot : Slot) (type : StackType) :
    looksGenerated (generated slot type).toList = true := by
  have digits : (Nat.toDigits 10 slot.toNat).all Char.isDigit = true := by
    rw [List.all_eq_true]
    intro digit member
    exact Nat.isDigit_of_mem_toDigits (by decide) (by decide) member
  simp [toList_generated, looksGenerated, digits, Nat.toDigits_ne_nil]

theorem not_looksGenerated_of_isUsable {name : String} (usable : isUsable name = true) :
    looksGenerated name.toList = false := by
  unfold isUsable at usable
  split at usable
  next => simp at usable
  next first rest spelled =>
    simp only [Bool.and_eq_true, Bool.not_eq_true'] at usable
    rw [spelled]
    exact usable.2

theorem ne_generated_of_isUsable {name : String} (usable : isUsable name = true) (slot : Slot)
    (type : StackType) : name ≠ generated slot type := by
  rintro rfl
  have different := not_looksGenerated_of_isUsable usable
  simp [looksGenerated_generated] at different

theorem isUsable_of_check {op : Opcode} {slot : Slot} {name : String} {tag : Char}
    (passed : check op slot name tag = .ok ()) : isUsable name = true := by
  unfold check at passed
  split at passed
  next => simp at passed
  next =>
    split at passed
    next => simp at passed
    next usable => simpa using usable

end LocalName

namespace Listing

/-- No two locals share a given name, and all given names are usable. -/
structure WellNamed (list : Listing) : Prop where
  distinct : (list.names.map Prod.snd).Nodup
  usable : ∀ entry ∈ list.names, LocalName.isUsable entry.2 = true

theorem WellNamed.of_names {list next : Listing} (named : list.WellNamed)
    (same : next.names = list.names) : next.WellNamed := by
  obtain ⟨distinct, usable⟩ := named
  exact ⟨same ▸ distinct, same ▸ usable⟩

theorem WellNamed.bindName {list next : Listing} (named : list.WellNamed) {slot : Slot}
    {type : StackType} {name : String} (usable : LocalName.isUsable name = true)
    (bound : list.bindName slot type name = .ok next) : next.WellNamed := by
  unfold Listing.bindName at bound
  split at bound
  next =>
    split at bound
    · cases bound
      exact named
    · simp at bound
  next =>
    split at bound
    next => simp at bound
    next free =>
      cases bound
      have newName : name ∉ list.names.map Prod.snd := by simpa using free
      refine ⟨?_, ?_⟩
      · simpa using List.Nodup.concat newName named.distinct
      · intro entry member
        rcases List.mem_append.mp member with old | new
        · exact named.usable entry old
        · obtain rfl := List.mem_singleton.mp new
          exact usable

theorem WellNamed.bindNameOf {list next : Listing} (named : list.WellNamed) {instr : Instr}
    (checked : instr.Checked) (bound : list.bindNameOf instr = .ok next) : next.WellNamed := by
  unfold Listing.bindNameOf at bound
  split at bound
  next op slot name tag delta =>
    split at bound
    · exact named.bindName (LocalName.isUsable_of_check checked) bound
    · cases bound
      exact named
  next =>
    cases bound
    exact named

theorem WellNamed.appendRecords {receiverStable : Bool} {records : List Record}
    {list result : Listing} {pool grown : ConstantPool} (named : list.WellNamed)
    (appended : Listing.appendRecords receiverStable records list pool = (.ok result, grown)) :
    result.WellNamed := by
  induction records generalizing list pool with
  | nil =>
      cases appended
      exact named
  | cons record rest ih =>
      simp only [Listing.appendRecords] at appended
      split at appended
      next => simp at appended
      next instr read =>
        split at appended
        next => simp at appended
        next bound made =>
          have checked := pool.checked_place (Record.checked_instr read)
          exact ih ((named.bindNameOf checked made).of_names (names_append ..)) appended

theorem mem_names_of_lookup {list : Listing} {place : Slot × StackType} {name : String}
    (bound : list.names.lookup place = some name) : (place, name) ∈ list.names := by
  obtain ⟨before, after, split, _⟩ := List.lookup_eq_some_iff.mp bound
  simp [split]

theorem WellNamed.localName_injective {list : Listing} (named : list.WellNamed)
    {slot other : Slot} {type kind : StackType}
    (same : list.localName slot type = list.localName other kind) :
    (slot, type) = (other, kind) := by
  unfold localName boundName? at same
  cases first : list.names.lookup (slot, type) with
  | none =>
      cases second : list.names.lookup (other, kind) with
      | none =>
          rw [first, second] at same
          exact LocalName.generated_injective same
      | some name =>
          rw [first, second] at same
          have usable := named.usable _ (mem_names_of_lookup second)
          exact absurd same.symm (LocalName.ne_generated_of_isUsable usable slot type)
  | some name =>
      cases second : list.names.lookup (other, kind) with
      | none =>
          rw [first, second] at same
          have usable := named.usable _ (mem_names_of_lookup first)
          exact absurd same (LocalName.ne_generated_of_isUsable usable other kind)
      | some again =>
          rw [first, second] at same
          exact congrArg Prod.fst
            (List.inj_on_of_nodup_map named.distinct (mem_names_of_lookup first)
              (mem_names_of_lookup second) same)

end Listing

theorem MethodDecl.wellNamed_assemble {method : MethodDecl} {unit after : UnitState}
    {list : Listing} (assembled : method.assemble unit = (.ok list, after)) : list.WellNamed := by
  obtain ⟨pool, appended, _⟩ := MethodDecl.assemble_eq_ok assembled
  have empty : Listing.empty.WellNamed := ⟨.nil, fun _ member => by cases member⟩
  exact (empty.of_names (Listing.names_appendRegions ..)).appendRecords appended

end BytecodeToC
