import BytecodeToC.Proofs.Absorption
import BytecodeToC.Proofs.LocalNames
import BytecodeToC.Proofs.MethodLowering
import Mathlib.Algebra.GroupWithZero.Nat
import Mathlib.Data.List.Count

/-!
The declarations of a function's locals. Besides the receiver and the parameters, a function declares
the locals that the instructions of the lowered listing touch, each once. Folding takes loads out of
that listing while the names they load stay in the body, as parts of expressions.
-/

namespace BytecodeToC

open Result

def LocalVar.place (var : LocalVar) : Slot × StackType := (var.slot, var.type)

theorem FieldType.width_pos (type : FieldType) : 1 ≤ type.width := by
  unfold width
  split <;> simp

namespace LocalTable

/-! The order of locals -/

theorem isBefore_iff (left right : Slot × StackType) :
    isBefore left right = true ↔ left.1.toNat < right.1.toNat ∨
      left.1.toNat = right.1.toNat ∧ left.2.rank < right.2.rank := by
  simp [isBefore, UInt16.lt_iff_toNat_lt, UInt16.toNat_inj]

theorem eq_of_rank {left right : Slot × StackType} (slots : left.1.toNat = right.1.toNat)
    (ranks : left.2.rank = right.2.rank) : left = right :=
  Prod.ext (UInt16.toNat_inj.mp slots) (StackType.rank_injective ranks)

def Ordered (places : List (Slot × StackType)) : Prop :=
  places.Pairwise fun left right => isBefore left right = true

theorem Ordered.nodup {places : List (Slot × StackType)} (ordered : Ordered places) :
    places.Nodup := by
  refine List.Pairwise.imp ?_ ordered
  rintro left right before rfl
  rw [isBefore_iff] at before
  omega

theorem mem_insertSorted {entry place : Slot × StackType} {places : List (Slot × StackType)} :
    place ∈ insertSorted entry places ↔ place = entry ∨ place ∈ places := by
  induction places with
  | nil => simp [insertSorted]
  | cons head rest ih =>
      unfold insertSorted
      split
      next same => simp [same]
      next =>
        split
        · simp
        · simp only [List.mem_cons, ih]
          exact or_left_comm

theorem Ordered.insertSorted {places : List (Slot × StackType)} (ordered : Ordered places)
    (entry : Slot × StackType) : Ordered (insertSorted entry places) := by
  induction places with
  | nil => exact List.pairwise_singleton ..
  | cons head rest ih =>
      obtain ⟨first, others⟩ := List.pairwise_cons.mp ordered
      unfold LocalTable.insertSorted
      split
      next => exact ordered
      next differs =>
        split
        next before =>
          refine List.pairwise_cons.mpr ⟨?_, ordered⟩
          intro place member
          rcases List.mem_cons.mp member with rfl | later
          · exact before
          · have after := first place later
            rw [isBefore_iff] at before after ⊢
            omega
        next notBefore =>
          refine List.pairwise_cons.mpr ⟨?_, ih others⟩
          intro place member
          rcases mem_insertSorted.mp member with rfl | later
          · have ranks : place.1.toNat = head.1.toNat → place.2.rank ≠ head.2.rank :=
              fun slots ranks => differs (eq_of_rank slots ranks)
            rw [isBefore_iff] at notBefore ⊢
            omega
          · exact first place later

theorem ordered_foldl (entries sorted : List (Slot × StackType)) (ordered : Ordered sorted) :
    Ordered (entries.foldl (fun sorted entry => insertSorted entry sorted) sorted) ∧
      ∀ place, place ∈ entries.foldl (fun sorted entry => insertSorted entry sorted) sorted ↔
        place ∈ entries ∨ place ∈ sorted := by
  induction entries generalizing sorted with
  | nil => simpa using ordered
  | cons entry rest ih =>
      obtain ⟨after, members⟩ := ih (insertSorted entry sorted) (ordered.insertSorted entry)
      refine ⟨after, fun place => ?_⟩
      rw [List.foldl_cons, members, mem_insertSorted, List.mem_cons]
      exact or_left_comm.trans (or_assoc.symm)

/-! What is declared -/

def given (list : Listing) (isStatic : Bool) (type : MethodType) : List LocalVar :=
  if isStatic then params list 0 type.params else receiver list :: params list 1 type.params

def givenPlaces (list : Listing) (isStatic : Bool) (type : MethodType) :
    List (Slot × StackType) :=
  (given list isStatic type).map LocalVar.place

def touched (list : Listing) : List (Slot × StackType) := list.instrs.filterMap touched?

theorem ofType_eq (list : Listing) (isStatic : Bool) (type : MethodType) :
    ofType list isStatic type = given list isStatic type ++ others list (given list isStatic type) :=
  rfl

theorem ordered_others (list : Listing) (vars : List LocalVar) :
    Ordered ((others list vars).map LocalVar.place) ∧
      ∀ place, place ∈ (others list vars).map LocalVar.place ↔
        place ∈ touched list ∧ place ∉ vars.map LocalVar.place := by
  let fresh := (touched list).filter fun place =>
    !vars.any fun var => var.slot = place.1 && var.type = place.2
  have places : (others list vars).map LocalVar.place =
      fresh.foldl (fun sorted entry => insertSorted entry sorted) [] := by
    simp only [others, List.map_map, LocalVar.place, Function.comp_def, List.map_id']
    rfl
  obtain ⟨ordered, members⟩ := ordered_foldl fresh [] List.Pairwise.nil
  rw [places]
  refine ⟨ordered, fun place => (members place).trans ?_⟩
  simp [fresh, LocalVar.place, Prod.ext_iff]

theorem count_others (list : Listing) (vars : List LocalVar) (place : Slot × StackType) :
    ((others list vars).map LocalVar.place).count place =
      if place ∈ touched list ∧ place ∉ vars.map LocalVar.place then 1 else 0 := by
  obtain ⟨ordered, members⟩ := ordered_others list vars
  rw [ordered.nodup.count]
  exact if_congr (members place) rfl rfl

theorem count_ofType (list : Listing) (isStatic : Bool) (type : MethodType)
    (place : Slot × StackType) :
    ((ofType list isStatic type).map LocalVar.place).count place =
      (givenPlaces list isStatic type).count place +
        if place ∈ touched list ∧ place ∉ givenPlaces list isStatic type then 1 else 0 := by
  rw [ofType_eq, List.map_append, List.count_append, count_others, givenPlaces]

theorem name_of_mem_params {list : Listing} {slot : Slot} {types : List FieldType}
    {var : LocalVar} (member : var ∈ params list slot types) :
    var.name = list.localName var.slot var.type := by
  induction types generalizing slot with
  | nil => simp [params] at member
  | cons type rest ih =>
      rcases List.mem_cons.mp member with rfl | later
      · rfl
      · exact ih later

theorem name_of_mem {list : Listing} {isStatic : Bool} {type : MethodType} {var : LocalVar}
    (member : var ∈ ofType list isStatic type) : var.name = list.localName var.slot var.type := by
  rcases List.mem_append.mp member with first | other
  · split at first
    · exact name_of_mem_params first
    · rcases List.mem_cons.mp first with rfl | param
      · rfl
      · exact name_of_mem_params param
  · obtain ⟨place, _, rfl⟩ := List.mem_map.mp other
    rfl

/-! Slots of parameters -/

def slots (isStatic : Bool) (type : MethodType) : Nat :=
  (if isStatic then 0 else 1) + (type.params.map FieldType.width).sum

theorem nodup_params (list : Listing) {slot : Slot} {types : List FieldType}
    (fits : slot.toNat + (types.map FieldType.width).sum ≤ 65536) :
    ((params list slot types).map LocalVar.place).Nodup ∧
      ∀ var ∈ params list slot types, slot.toNat ≤ var.slot.toNat := by
  induction types generalizing slot with
  | nil => simp [params]
  | cons type rest ih =>
      simp only [List.map_cons, List.sum_cons] at fits
      have wide := type.width_pos
      cases rest with
      | nil => simp [params]
      | cons following others =>
          -- The counter can only wrap after the last parameter.
          have more := following.width_pos
          simp only [List.map_cons, List.sum_cons] at fits ih
          have next : (slot + type.width.toUInt16).toNat = slot.toNat + type.width := by
            rw [UInt16.toNat_add, Nat.toUInt16_eq, UInt16.toNat_ofNat', Nat.add_mod_mod]
            exact Nat.mod_eq_of_lt (by omega)
          have room : (slot + type.width.toUInt16).toNat +
              (following.width + (others.map FieldType.width).sum) ≤ 65536 := by omega
          obtain ⟨distinct, later⟩ := ih room
          rw [params]
          refine ⟨List.nodup_cons.mpr ⟨?_, distinct⟩, ?_⟩
          · intro member
            obtain ⟨var, param, same⟩ := List.mem_map.mp member
            have after := later var param
            rw [show var.slot = slot from congrArg Prod.fst same] at after
            omega
          · intro var member
            rcases List.mem_cons.mp member with rfl | param
            · exact Nat.le_refl _
            · have after := later var param
              omega

theorem nodup_given (list : Listing) {isStatic : Bool} {type : MethodType}
    (fits : slots isStatic type ≤ 65536) : (givenPlaces list isStatic type).Nodup := by
  cases isStatic with
  | true => exact (nodup_params list (by simpa [slots] using fits)).1
  | false =>
      have room : (1 : Slot).toNat + (type.params.map FieldType.width).sum ≤ 65536 := by
        simpa [slots] using fits
      obtain ⟨distinct, later⟩ := nodup_params list room
      refine List.nodup_cons.mpr ⟨?_, distinct⟩
      intro member
      obtain ⟨var, param, same⟩ := List.mem_map.mp member
      have after := later var param
      rw [show var.slot = 0 from congrArg Prod.fst same] at after
      simp at after

/-- Exactly one declaration has the C name of a local, and it declares this local. -/
def DeclaresOnce (list : Listing) (locals : List LocalVar) (place : Slot × StackType) : Prop :=
  ∃ var, var.place = place ∧
    locals.filter (fun other => other.name = list.localName place.1 place.2) = [var]

theorem declaresOnce_iff {list : Listing} (named : list.WellNamed) (isStatic : Bool)
    (type : MethodType) (place : Slot × StackType) :
    DeclaresOnce list (ofType list isStatic type) place ↔
      (givenPlaces list isStatic type).count place = 1 ∨
        place ∉ givenPlaces list isStatic type ∧ place ∈ touched list := by
  have byPlace : (ofType list isStatic type).filter
        (fun other => other.name = list.localName place.1 place.2) =
      (ofType list isStatic type).filter fun other => other.place = place := by
    refine List.filter_congr fun var member => ?_
    rw [name_of_mem member, decide_eq_decide]
    exact ⟨named.localName_injective, by rintro rfl; rfl⟩
  have counted : ((ofType list isStatic type).filter fun other => other.place = place).length =
      ((ofType list isStatic type).map LocalVar.place).count place := by
    rw [List.count, List.countP_map, ← List.countP_eq_length_filter]
    exact List.countP_congr fun _ _ => by simp
  have once : DeclaresOnce list (ofType list isStatic type) place ↔
      ((ofType list isStatic type).map LocalVar.place).count place = 1 := by
    rw [← counted, List.length_eq_one_iff, DeclaresOnce, byPlace]
    constructor
    · rintro ⟨var, _, single⟩
      exact ⟨var, single⟩
    · rintro ⟨var, single⟩
      have member : var ∈ (ofType list isStatic type).filter fun other => other.place = place := by
        simp [single]
      exact ⟨var, by simpa using (List.mem_filter.mp member).2, single⟩
  rw [once, count_ofType]
  by_cases early : place ∈ givenPlaces list isStatic type
  · simp [early]
  · have none := List.count_eq_zero.mpr early
    simp [early, none]

end LocalTable

end BytecodeToC
