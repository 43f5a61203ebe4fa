import BytecodeToC.Proofs.Declarations
import BytecodeToC.Proofs.Ownership

/-!
The table of a method's locals. The receiver and the parameters come first, each at the slot where the
widths before it end, and then the other locals in the order of their slots. No two entries are for
the same local, and no two have the same C name. The names stay clear of those that the lowering
uses for itself.
-/

namespace BytecodeToC

open Result

/-! Names -/

theorem LocalName.ne_threadStateData_generated (slot : Slot) (type : StackType) :
    generated slot type ≠ "threadStateData" := by
  intro same
  have lists := congrArg String.toList same
  rw [toList_generated] at lists
  simp at lists

theorem LocalName.ne_threadStateData_of_isUsable {name : String} (usable : isUsable name = true) :
    name ≠ "threadStateData" := by
  rintro rfl
  revert usable
  decide

namespace Listing.WellNamed

variable {list : Listing} (named : list.WellNamed)
include named

theorem ne_threadStateData (slot : Slot) (type : StackType) :
    list.localName slot type ≠ "threadStateData" := by
  unfold localName boundName?
  cases bound : list.names.lookup (slot, type) with
  | none => exact LocalName.ne_threadStateData_generated slot type
  | some name =>
      exact LocalName.ne_threadStateData_of_isUsable (named.usable _ (mem_names_of_lookup bound))

theorem nodup_names {locals : List LocalVar}
    (given : ∀ var ∈ locals, var.name = list.localName var.slot var.type)
    (distinct : (locals.map LocalVar.place).Nodup) : (locals.map (·.name)).Nodup := by
  have names : locals.map (·.name) =
      (locals.map LocalVar.place).map fun place => list.localName place.1 place.2 := by
    rw [List.map_map]
    exact List.map_congr_left given
  rw [names]
  exact distinct.map fun _ _ same => named.localName_injective same

end Listing.WellNamed

/-! Slots -/

namespace LocalTable

/-- What a method declares: slot, kind and C parameter of the receiver and of every parameter. -/
def signature (isStatic : Bool) (type : MethodType) : List (Nat × StackType × Option String) :=
  let first := if isStatic then 0 else 1
  (if isStatic then [] else [(0, .object, some "__this")]) ++
    type.params.mapIdx fun index param =>
      let slot := first + ((type.params.take index).map FieldType.width).sum
      (slot, param.stackType, some ("__param_" ++ toString slot))

theorem params_layout (list : Listing) {slot : Slot} {types : List FieldType}
    (fits : slot.toNat + (types.map FieldType.width).sum ≤ 65535) :
    (params list slot types).map (fun var => (var.slot.toNat, var.type, var.param)) =
      types.mapIdx fun index param =>
        let place := slot.toNat + ((types.take index).map FieldType.width).sum
        (place, param.stackType, some ("__param_" ++ toString place)) := by
  induction types generalizing slot with
  | nil => rfl
  | cons type rest ih =>
      simp only [List.map_cons, List.sum_cons] at fits
      have next : (slot + type.width.toUInt16).toNat = slot.toNat + type.width := by
        rw [UInt16.toNat_add, Nat.toUInt16_eq, UInt16.toNat_ofNat', Nat.add_mod_mod]
        exact Nat.mod_eq_of_lt (by omega)
      rw [params, List.map_cons, ih (by omega), List.mapIdx_cons]
      simp [next, paramName, Nat.add_assoc]

theorem given_layout (list : Listing) {isStatic : Bool} {type : MethodType}
    (fits : slots isStatic type ≤ 65535) :
    (given list isStatic type).map (fun var => (var.slot.toNat, var.type, var.param)) =
      signature isStatic type := by
  cases isStatic with
  | true =>
      have room : (0 : Slot).toNat + (type.params.map FieldType.width).sum ≤ 65535 := by
        simpa [slots] using fits
      simp [given, signature, params_layout list room]
  | false =>
      have room : (1 : Slot).toNat + (type.params.map FieldType.width).sum ≤ 65535 := by
        simpa [slots] using fits
      simp [given, signature, receiver, receiverParam, params_layout list room]

theorem nodup_ofType (list : Listing) {isStatic : Bool} {type : MethodType}
    (fits : slots isStatic type ≤ 65535) :
    ((ofType list isStatic type).map LocalVar.place).Nodup := by
  obtain ⟨ordered, members⟩ := ordered_others list (given list isStatic type)
  rw [ofType_eq, List.map_append]
  refine List.nodup_append.mpr ⟨nodup_given list (by omega), ordered.nodup, ?_⟩
  rintro place early _ late rfl
  exact ((members place).mp late).2 early

theorem others_by_slot (list : Listing) (vars : List LocalVar) :
    (others list vars).Pairwise fun left right => left.slot ≤ right.slot := by
  have ordered := (ordered_others list vars).1
  rw [Ordered, List.pairwise_map] at ordered
  refine ordered.imp fun {left right} before => ?_
  rw [isBefore_iff] at before
  simp only [LocalVar.place] at before
  rw [UInt16.le_iff_toNat_le]
  omega

theorem param_of_mem_others {list : Listing} {vars : List LocalVar} {var : LocalVar}
    (member : var ∈ others list vars) : var.param = none := by
  obtain ⟨place, _, rfl⟩ := List.mem_map.mp member
  rfl

end LocalTable

/-- The locals of an assembled listing, folded in whichever way or not at all. -/
theorem local_layout_collision_free {source : MethodDecl} {unit after : UnitState}
    {built list : Listing} {count : Nat} (assembled : source.assemble unit = (.ok built, after))
    (run : Listing.FoldRun count built list) {header : MethodHeader} {type : MethodType}
    (parsed : MethodType.parse header.descriptor = .ok type)
    (fits : LocalTable.slots header.isStatic type ≤ 65535) :
    ∃ given others : List LocalVar,
      LocalTable.collect list header = .ok (given ++ others) ∧
      ((given ++ others).map LocalVar.place).Nodup ∧ ((given ++ others).map (·.name)).Nodup ∧
      (∀ var ∈ given ++ others, var.name = list.localName var.slot var.type ∧
        C.isTemporary var.name = false ∧ var.name ≠ "threadStateData") ∧
      given.map (fun var => (var.slot.toNat, var.type, var.param)) =
        LocalTable.signature header.isStatic type ∧
      (∀ var ∈ others, var.param = none) ∧
      others.Pairwise (fun left right => left.slot ≤ right.slot) ∧
      ∀ place, place ∈ others.map LocalVar.place ↔
        place ∈ LocalTable.touched list ∧ place ∉ given.map LocalVar.place := by
  -- folding leaves the names alone
  have named : list.WellNamed :=
    (MethodDecl.wellNamed_assemble assembled).of_names (Listing.Reduces.foldRun run).names
  have distinct := LocalTable.nodup_ofType list fits
  have names : ∀ var ∈ LocalTable.ofType list header.isStatic type,
      var.name = list.localName var.slot var.type := fun _ => LocalTable.name_of_mem
  refine ⟨LocalTable.given list header.isStatic type, LocalTable.others list _, ?_, distinct,
    named.nodup_names names distinct, ?_, LocalTable.given_layout list fits,
    fun _ => LocalTable.param_of_mem_others, LocalTable.others_by_slot list _,
    (LocalTable.ordered_others list _).2⟩
  · rw [LocalTable.collect, parsed]
    rfl
  · intro var member
    refine ⟨names var member, ?_, ?_⟩
    · rw [names var member]
      exact named.isTemporary_localName ..
    · rw [names var member]
      exact named.ne_threadStateData var.slot var.type

def Sample.mixedSlots : MethodDecl :=
  { name := "run", descriptor := "(JI)V", isStatic := false, maxStack := 4, maxLocals := 6
    code :=
      [.localVar "lload" (some 1) (some "start") none, .localVar "lstore" (some 4) (some "end") none,
       .simple "iload_3" none, .simple "iconst_1" none, .simple "iadd" none,
       .localVar "istore" (some 4) none none, .simple "return" none]
    tryCatch := [] }

def Sample.mixedSlotsListing : Listing :=
  { nodes :=
      #[.namedLocal .lload 1 "start" 'J' none, .namedLocal .lstore 4 "end" 'J' none,
        .localVar .iload 3 none, .basic .iconst1 none, .basic ⟨0x60⟩ none,
        .localVar .istore 4 none, .basic .voidReturn none]
    order := [0, 1, 2, 3, 4, 5, 6]
    names := [((1, .long), "start"), ((4, .long), "end")] }

theorem local_layout_collision_free_sample :
    Sample.mixedSlots.assemble .empty = (.ok Sample.mixedSlotsListing, .empty) ∧
      ∃ given others : List LocalVar,
        LocalTable.collect Sample.mixedSlotsListing.fold.1 (Sample.mixedSlots.header "t/Main") =
          .ok (given ++ others) ∧
        given.map (fun var => (var.slot.toNat, var.type, var.param)) =
          [(0, .object, some "__this"), (1, .long, some "__param_1"), (3, .int, some "__param_3")] ∧
        ((given ++ others).map (·.name)).Nodup := by
  have assembled : Sample.mixedSlots.assemble .empty = (.ok Sample.mixedSlotsListing, .empty) := by
    decide +kernel
  have parsed : MethodType.parse (Sample.mixedSlots.header "t/Main").descriptor =
      .ok ⟨[.primitive .long, .primitive .int], none⟩ := by decide +kernel
  obtain ⟨given, others, collected, _, names, _, layout, _⟩ :=
    local_layout_collision_free assembled (Listing.fold_run _) parsed (by decide)
  exact ⟨assembled, given, others, collected, layout, names⟩

end BytecodeToC
