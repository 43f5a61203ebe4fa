import BytecodeToC.Proofs.ClassReferences
import Mathlib.Data.List.DropRight

/-!
Dependencies and references. The dependencies of a method name the class of each reference of its code
but for two kinds: a static member that is inherited is reached through the class that declares it,
while the class that is written becomes the dependency; and a class whose name is the letter of a
primitive is taken for that primitive.
-/

namespace BytecodeToC

open Result

/-! Type names -/

namespace TypeName

def isPrimitiveLetter (name : String) : Bool :=
  (Primitive.all.map fun kind => String.singleton kind.letter).contains name

theorem dimensions_of_class {name : String} (plain : isArray name = false) : dimensions name = 0 := by
  cases spelled : name.toList with
  | nil => simp [dimensions, spelled]
  | cons first rest =>
      have other : first ≠ '[' := by simpa [isArray, spelled] using plain
      simp [dimensions, spelled, other]

theorem isArray_of_dimensions {name : String} (none : dimensions name = 0) : isArray name = false := by
  cases spelled : name.toList with
  | nil => simp [isArray, spelled]
  | cons first rest =>
      simp only [dimensions, spelled, List.takeWhile_cons] at none
      split at none
      next => simp at none
      next other => simpa [isArray, spelled] using other

theorem element_of_class {name : String} (plain : isArray name = false) : element name = name := by
  rw [← String.toList_inj, element, String.toList_ofList]
  cases spelled : name.toList with
  | nil => rfl
  | cons first rest =>
      have other : first ≠ '[' := by simpa [isArray, spelled] using plain
      simp [other]

theorem classOfElement?_of_class {name : List Char} (clean : ';' ∉ name)
    (other : ∀ c, name = [c] → Primitive.ofLetter? c = none) :
    classOfElement? name = some name := by
  unfold classOfElement?
  split
  next rest =>
    split
    next last => exact absurd (List.mem_cons_of_mem _ (List.mem_of_getLast? last)) clean
    next => rfl
  next c _ => simp [other c rfl]
  next => rfl

theorem isPrimitiveLetter_of_ofLetter? {c : Char} {kind : Primitive}
    (found : Primitive.ofLetter? c = some kind) : isPrimitiveLetter (String.singleton c) = true := by
  obtain rfl := Primitive.letter_of_ofLetter? found
  cases kind <;> decide

theorem elementClass?_of_class {name : String} (plain : isArray name = false)
    (valid : isValid name = true) (other : isPrimitiveLetter name = false) :
    elementClass? name = some name := by
  have clean : ';' ∉ name.toList := by
    intro member
    simp only [isValid, plain, Bool.false_eq_true, ↓reduceIte, Bool.and_eq_true,
      List.all_eq_true] at valid
    simpa using valid.2 ';' member
  have whole : classOfElement? name.toList = some name.toList := by
    refine classOfElement?_of_class clean fun c single => ?_
    cases found : Primitive.ofLetter? c with
    | none => rfl
    | some kind =>
        have same : name = String.singleton c := String.toList_inj.mp (by simp [single])
        rw [same, isPrimitiveLetter_of_ofLetter? found] at other
        simp at other
  rw [elementClass?, element_of_class plain, whole]
  simp

theorem elementClass?_arrayOf (name : String) : elementClass? ("[L" ++ name ++ ";") = some name := by
  simp [elementClass?, element, classOfElement?]

theorem elementClass?_bracket (name : String) : elementClass? ("[" ++ name) = elementClass? name := by
  simp [elementClass?, element]

theorem elementClass?_brackets (dimensions : Nat) (name : String) :
    elementClass? (String.ofList (List.replicate dimensions '[') ++ element name) =
      elementClass? name := by
  have brackets : ∀ c ∈ List.replicate dimensions '[', decide (c = '[') = true := by
    intro c member
    simpa using List.eq_of_mem_replicate member
  have peeled : element (String.ofList (List.replicate dimensions '[') ++ element name) =
      element name := by
    simp only [element, String.toList_append, String.toList_ofList,
      List.dropWhile_append_of_pos brackets]
    rw [List.dropWhile_idempotent]
  rw [elementClass?, elementClass?, peeled]

end TypeName

/-! Try regions of assembled listings -/

namespace Listing

theorem mem_instrs_iff {list : Listing} {instr : Instr} :
    instr ∈ list.instrs ↔ ∃ id ∈ list.order, list.node? id = some instr :=
  List.mem_filterMap

theorem mem_instrs_push {list : Listing} {kept : Instr} (member : kept ∈ list.instrs)
    (instr : Instr) : kept ∈ (list.push instr).2.instrs := by
  obtain ⟨id, ordered, found⟩ := mem_instrs_iff.mp member
  refine mem_instrs_iff.mpr ⟨id, by simp [ordered], ?_⟩
  exact (list.node?_alloc_of_lt instr (lt_size_of_node? found)).trans found

theorem mem_instrs_append {list : Listing} {kept : Instr} (member : kept ∈ list.instrs)
    (other : ∀ op slot delta, kept ≠ .localVar op slot delta) (receiverStable : Bool)
    (instr : Instr) : kept ∈ (list.append receiverStable instr).instrs := by
  unfold append
  split
  next access =>
    split
    next merged =>
      apply mem_instrs_push
      obtain ⟨id, ordered, found⟩ := mem_instrs_iff.mp member
      refine mem_instrs_iff.mpr ⟨id, ?_, found⟩
      -- Only the last instruction leaves the order, and it is a load.
      simp only [Bool.and_eq_true] at merged
      obtain ⟨last, op, slot, delta, ending, load⟩ := exists_load_of_endsWithReceiver merged.2
      have parts := List.dropLast_append_getLast? last ending
      rw [← parts, List.mem_append, List.mem_singleton] at ordered
      rcases ordered with earlier | rfl
      · exact earlier
      · exact absurd (Option.some.inj (found.symm.trans load)) (other op slot delta)
    next => exact mem_instrs_push member _
  next => exact mem_instrs_push member _

theorem tryRegion_mem_appendRegions (entries : List TryEntry) {list : Listing} {scope : MethodScope}
    (known : ∀ region ∈ scope.regions, .tryRegion region ∈ list.instrs) :
    ∀ region ∈ (appendRegions entries list scope).2.regions,
      .tryRegion region ∈ (appendRegions entries list scope).1.instrs := by
  induction entries generalizing list scope with
  | nil => exact known
  | cons entry rest ih =>
      simp only [appendRegions]
      split
      · exact ih known
      · refine ih fun region member => ?_
        simp only [MethodScope.register, List.mem_append, List.mem_singleton] at member
        rcases member with older | rfl
        · exact mem_instrs_push (known region older) _
        · exact mem_instrs_iff.mpr ⟨list.nodes.size, by simp, list.node?_alloc_self _⟩

theorem tryRegion_mem_appendRecords {receiverStable : Bool} {records : List Record}
    {list result : Listing} {pool grown : ConstantPool}
    (appended : appendRecords receiverStable records list pool = (.ok result, grown))
    {region : Region} (member : .tryRegion region ∈ list.instrs) :
    .tryRegion region ∈ result.instrs := by
  induction records generalizing list pool with
  | nil =>
      cases appended
      exact member
  | cons record rest ih =>
      simp only [appendRecords] at appended
      split at appended
      next => simp at appended
      next instr read =>
        split at appended
        next => simp at appended
        next named bound =>
          obtain ⟨names, rfl⟩ := bindNameOf_eq_ok bound
          have kept : .tryRegion region ∈ { list with names }.instrs := member
          exact ih appended (mem_instrs_append kept (by simp) ..)

end Listing

theorem MethodDecl.tryRegion_mem_assemble {method : MethodDecl} {unit after : UnitState}
    {list : Listing} (assembled : method.assemble unit.beginMethod = (.ok list, after))
    {region : Region} (member : region ∈ method.regions) : .tryRegion region ∈ list.instrs := by
  rw [← MethodDecl.regions_assemble assembled] at member
  obtain ⟨pool, appended, rfl⟩ := MethodDecl.assemble_eq_ok assembled
  refine Listing.tryRegion_mem_appendRecords appended ?_
  exact Listing.tryRegion_mem_appendRegions _ (by simp [UnitState.beginMethod, MethodScope.empty])
    region member

/-! Instructions -/

/-- The operand of a type instruction is a class or an array, and `new` takes a class. -/
def Instr.WellTyped : Instr → Prop
  | .type op typeName =>
    TypeName.isValid typeName = true ∧ (op = .new → TypeName.isArray typeName = false)
  | _ => True

theorem MethodDecl.wellTyped_assemble {method : MethodDecl} {unit after : UnitState} {list : Listing}
    (assembled : method.assemble unit = (.ok list, after)) : list.AllNodes Instr.WellTyped := by
  refine MethodDecl.allNodes_assemble ?_ (fun _ _ => trivial) (fun _ => trivial) assembled
  intro record instr pool made
  have typed : instr.WellTyped := by
    cases Record.makes_of_instr made with
    | type operation valid plain => exact ⟨valid, plain⟩
    | _ => trivial
  unfold ConstantPool.place
  split
  · trivial
  · trivial
  · exact typed

def Instr.undeclared (index : ClassIndex) (instruction : Instr) : List String :=
  let used := (instruction.classReferences index []).filterMap Reference.className?
  match instruction with
  | .field access => used.filter (· ≠ access.owner)
  | .invoke call => used.filter (· ≠ call.owner)
  | .type _ typeName => if TypeName.isPrimitiveLetter typeName then [typeName] else []
  | _ => []

namespace Reference

theorem exists_classIdentity_eq {typeName name : String}
    (mentioned : (identity typeName).className? = some name) :
    ∃ before, Symbol.classIdentity typeName = before ++ Symbol.ofClass name := by
  simp only [className?] at mentioned
  simp only [Symbol.classIdentity]
  split
  next none =>
    rw [TypeName.isArray_of_dimensions none] at mentioned
    cases mentioned
    exact ⟨"class__", rfl⟩
  next dimensions some =>
    have array : TypeName.isArray typeName = true := by
      by_contra single
      exact some (TypeName.dimensions_of_class (by simpa using single))
    rw [if_pos array] at mentioned
    exact ⟨"class_array" ++ toString (TypeName.dimensions typeName) ++ "__", by simp [mentioned]⟩

theorem exists_ofMethod_eq (owner method : String) (type : MethodType) :
    ∃ behind, Symbol.ofMethod owner method type = Symbol.ofClass owner ++ behind := by
  simp only [Symbol.ofMethod, String.append_assoc]
  exact ⟨_, rfl⟩

theorem exists_text_eq {reference : Reference} {name : String}
    (mentioned : reference.className? = some name) :
    ∃ before behind, reference.text = before ++ Symbol.ofClass name ++ behind := by
  cases reference with
  | accessor kind owner field =>
      cases mentioned
      exact ⟨kind ++ "_", "_" ++ Symbol.ofMember field, by
        simp [text, FieldAccess.accessor, String.append_assoc]⟩
  | allocation typeName =>
      cases mentioned
      exact ⟨"__NEW_", "", by simp [text]⟩
  | identity typeName =>
      obtain ⟨before, spelled⟩ := exists_classIdentity_eq mentioned
      exact ⟨before, "", by simp [text, spelled]⟩
  | handler catchType =>
      cases catchType with
      | none => cases mentioned
      | some caught =>
          cases mentioned
          exact ⟨"CLASS_ID_", "", by simp [text, Symbol.classId]⟩
  | target dispatch owner method type =>
      simp only [className?] at mentioned
      split at mentioned
      next => cases mentioned
      next =>
        cases mentioned
        obtain ⟨behind, spelled⟩ := exists_ofMethod_eq name method type
        cases dispatch with
        | static | special => exact ⟨"", behind, by simp [text, spelled]⟩
        | virtual | interface =>
            exact ⟨"virtual_", behind, by simp [text, spelled, String.append_assoc]⟩

theorem className?_ofNewArray {code : Option Int32} {reference : Reference}
    (member : reference ∈ ofNewArray code) : reference.className? = none := by
  obtain ⟨kind, _, rfl⟩ := List.mem_map.mp member
  cases kind <;> decide

theorem isArray_arrayOf (typeName : String) : TypeName.isArray (arrayOf typeName) = true := by
  unfold arrayOf
  split <;> simp [TypeName.isArray]

theorem className?_arrayOf (typeName : String) :
    (identity (arrayOf typeName)).className? =
      if TypeName.isArray typeName then TypeName.elementClass? typeName else some typeName := by
  simp only [className?, isArray_arrayOf, ↓reduceIte]
  unfold arrayOf
  split
  · exact TypeName.elementClass?_bracket typeName
  · exact TypeName.elementClass?_arrayOf typeName

theorem mem_nestedArrays {element name : String} {dimensions : Nat}
    (member : name ∈ nestedArrays element dimensions) :
    ∃ count, name = String.ofList (List.replicate (count + 1) '[') ++ element := by
  induction dimensions with
  | zero => simp [nestedArrays] at member
  | succ dimensions ih =>
      rcases List.mem_cons.mp member with rfl | later
      · exact ⟨dimensions, rfl⟩
      · exact ih later

theorem linked_subset (arrays : List String) : linked arrays ⊆ arrays := by
  match arrays with
  | [] | [_] => simp [linked]
  | outer :: inner :: rest =>
      have later := linked_subset (inner :: rest)
      intro name member
      rcases List.mem_cons.mp member with rfl | member
      · exact List.mem_cons_self
      · rcases List.mem_cons.mp member with rfl | member
        · simp
        · exact List.mem_cons_of_mem _ (later member)

theorem className?_ofMultiArray {descriptor : String} {reference : Reference}
    (member : reference ∈ ofMultiArray descriptor) :
    reference.className? = TypeName.elementClass? descriptor := by
  obtain ⟨name, listed, rfl⟩ := List.mem_map.mp member
  have nested : name ∈ nestedArrays (TypeName.element descriptor)
      (TypeName.dimensions descriptor) := by
    rcases List.mem_append.mp listed with link | plain
    · split at link
      · exact linked_subset _ link
      · simp at link
    · exact plain
  obtain ⟨count, rfl⟩ := mem_nestedArrays nested
  have array : TypeName.isArray (String.ofList (List.replicate (count + 1) '[') ++
      TypeName.element descriptor) = true := by
    simp [TypeName.isArray, List.replicate_succ]
  rw [className?, if_pos array, TypeName.elementClass?_brackets]

theorem isArray_of_mem_ofCall {index : ClassIndex} {call : Call} {type : MethodType}
    {reference : Reference} (member : reference ∈ ofCall index call type) {name : String}
    (mentioned : reference.className? = some name) : TypeName.isArray name = false := by
  unfold ofCall at member
  split at member
  · simp at member
  · obtain rfl := List.mem_singleton.mp member
    simp only [className?] at mentioned
    split at mentioned
    · simp at mentioned
    next single =>
      cases mentioned
      simpa using single

theorem className?_ofType {op : Opcode} {typeName : String}
    (plain : op = .new → TypeName.isArray typeName = false) :
    (ofType op typeName).className? =
      if TypeName.isArray typeName then TypeName.elementClass? typeName else some typeName := by
  unfold ofType
  split
  next => simp [className?, plain rfl]
  next => exact className?_arrayOf typeName
  next => rfl

end Reference

theorem TypeName.isArray_of_isPrimitiveLetter {name : String}
    (letter : isPrimitiveLetter name = true) : isArray name = false := by
  simp only [isPrimitiveLetter, List.contains_iff_mem, List.mem_map] at letter
  obtain ⟨kind, _, rfl⟩ := letter
  cases kind <;> decide

theorem Instr.declared_or_undeclared {instruction : Instr} (typed : instruction.WellTyped)
    (other : ∀ id, instruction ≠ .label id) {index : ClassIndex} {regions : List Region}
    {reference : Reference} (member : reference ∈ instruction.classReferences index regions)
    {name : String} (mentioned : reference.className? = some name) :
    Symbol.ofClass name ∈ instruction.dependencies ∨ name ∈ instruction.undeclared index := by
  cases instruction with
  | basic op code =>
      simp only [Instr.classReferences] at member
      split at member
      · simp [Reference.className?_ofNewArray member] at mentioned
      · simp at member
  | field access =>
      obtain rfl := List.mem_singleton.mp member
      by_cases written : name = access.owner
      · exact .inl (by simp [Instr.dependencies, written])
      · refine .inr (List.mem_filter.mpr ⟨?_, by simpa using written⟩)
        exact List.mem_filterMap.mpr ⟨_, List.mem_singleton_self _, mentioned⟩
  | invoke call =>
      by_cases written : name = call.owner
      · obtain ⟨type, _, called⟩ := List.mem_flatMap.mp member
        have single := Reference.isArray_of_mem_ofCall called mentioned
        rw [written] at single
        exact .inl (by simp [Instr.dependencies, written, single])
      · refine .inr (List.mem_filter.mpr ⟨?_, by simpa using written⟩)
        exact List.mem_filterMap.mpr ⟨_, member, mentioned⟩
  | label id => exact absurd rfl (other id)
  | type op typeName =>
      obtain rfl := List.mem_singleton.mp member
      obtain ⟨valid, plain⟩ := typed
      rw [Reference.className?_ofType plain] at mentioned
      split at mentioned
      next => exact .inl (by simp [Instr.dependencies, Instr.nameDependencies, mentioned])
      next single =>
        cases mentioned
        cases letter : TypeName.isPrimitiveLetter name with
        | true => exact .inr (by simp [Instr.undeclared, letter])
        | false =>
            have whole := TypeName.elementClass?_of_class (by simpa using single) valid letter
            exact .inl (by simp [Instr.dependencies, Instr.nameDependencies, whole])
  | multiArray descriptor dimensions =>
      have element := (Reference.className?_ofMultiArray member).symm.trans mentioned
      simp [Instr.dependencies, Instr.nameDependencies, element]
  | _ => simp [Instr.classReferences] at member

theorem Instr.exists_reference_of_undeclared {instruction : Instr} (typed : instruction.WellTyped)
    {index : ClassIndex} {name : String} (member : name ∈ instruction.undeclared index)
    (regions : List Region) :
    ∃ reference ∈ instruction.classReferences index regions, reference.className? = some name := by
  cases instruction with
  | field access => exact List.mem_filterMap.mp (List.mem_filter.mp member).1
  | invoke call => exact List.mem_filterMap.mp (List.mem_filter.mp member).1
  | type op typeName =>
      simp only [Instr.undeclared] at member
      split at member
      next letter =>
        obtain rfl := List.mem_singleton.mp member
        refine ⟨_, List.mem_singleton_self _, ?_⟩
        rw [Reference.className?_ofType typed.2, TypeName.isArray_of_isPrimitiveLetter letter]
        rfl
      next => simp at member
  | _ => simp [Instr.undeclared] at member

/-! Methods -/

def Listing.classReferences (list : Listing) (index : ClassIndex) (regions : List Region) :
    List Reference :=
  list.instrs.flatMap (Instr.classReferences index regions)

theorem MethodDecl.covers_iff {method : MethodDecl} {unit after : UnitState} {list : Listing}
    (assembled : method.assemble unit.beginMethod = (.ok list, after)) (index : ClassIndex) :
    let declared := list.instrs.flatMap Instr.dependencies
    (∀ reference ∈ list.classReferences index method.regions, ∀ name ∈ reference.className?,
        Symbol.ofClass name ∈ declared) ↔
      ∀ instruction ∈ list.instrs, ∀ name ∈ instruction.undeclared index,
        Symbol.ofClass name ∈ declared := by
  intro declared
  have typed := MethodDecl.wellTyped_assemble assembled
  constructor
  · intro covered instruction member name missing
    obtain ⟨reference, refers, mentioned⟩ :=
      Instr.exists_reference_of_undeclared (typed.mem_instrs member) missing method.regions
    exact covered reference (List.mem_flatMap.mpr ⟨instruction, member, refers⟩) name mentioned
  · intro covered reference member name mentioned
    obtain ⟨instruction, listed, refers⟩ := List.mem_flatMap.mp member
    -- A label opens regions whose caught classes the nodes of the regions declare, not the label.
    by_cases label : ∃ id, instruction = .label id
    · obtain ⟨id, rfl⟩ := label
      obtain ⟨region, begins, rfl⟩ := List.mem_map.mp refers
      have region_mem : region ∈ method.regions := by
        simpa using List.mem_of_mem_filter (List.mem_reverse.mp begins)
      have catches : region.catchType = some name := mentioned
      refine List.mem_flatMap.mpr ⟨_, MethodDecl.tryRegion_mem_assemble assembled region_mem, ?_⟩
      simp [Instr.dependencies, catches]
    · rcases Instr.declared_or_undeclared (typed.mem_instrs listed)
        (fun id same => label ⟨id, same⟩) refers mentioned with here | missing
      · exact List.mem_flatMap.mpr ⟨instruction, listed, here⟩
      · exact covered instruction listed name missing

/-- Without folding, the class names in a lowered body are the references of its instructions, and
each spells the symbol of its class. All these classes are dependencies exactly if those are that no
instruction declares: the declaring class of an inherited static member, and a class named like a
primitive. -/
theorem dependencies_cover_references_iff {method : MethodDecl} {owner : String} {index : ClassIndex}
    {options : Options} {unit after : UnitState} {lowered : LoweredMethod}
    (plain : options.reduce = false)
    (success : method.lower owner index options unit = (.ok lowered, after)) :
    ∃ list assembled, method.assemble unit.beginMethod = (.ok list, assembled) ∧
      lowered.function.body.flatMap C.Item.classNames =
        (list.classReferences index method.regions).map Reference.text ∧
      (∀ reference ∈ list.classReferences index method.regions, ∀ name ∈ reference.className?,
        ∃ before behind, reference.text = before ++ Symbol.ofClass name ++ behind) ∧
      ((∀ reference ∈ list.classReferences index method.regions, ∀ name ∈ reference.className?,
          Symbol.ofClass name ∈ lowered.dependencies) ↔
        ∀ instruction ∈ list.instrs, ∀ name ∈ instruction.undeclared index,
          Symbol.ofClass name ∈ lowered.dependencies) := by
  obtain ⟨list, assembled, made, lowering⟩ := MethodDecl.lower_eq_ok success
  obtain ⟨type, scope, lowers⟩ := MethodHeader.lower_eq_ok lowering
  have whole : list.under options = list := by simp [Listing.under, plain]
  have body := lowers.body
  have declared := lowers.dependencies
  have marked := lowers.marked
  rw [whole] at body declared marked
  obtain ⟨_, regions, _⟩ := MethodScope.markLabels_eq_ok marked
  have registered : scope.regions = method.regions :=
    regions.trans (MethodDecl.regions_assemble made)
  obtain ⟨state, ran, _, _⟩ := MethodHeader.lowerBody_eq_ok body
  obtain ⟨emitted, _⟩ := Emission.body_eq_ok ran
  have leaves : ∀ instruction ∈ list.instrs, instruction.operands = [] := by
    intro instruction member
    obtain ⟨id, _, found⟩ := Listing.mem_instrs_iff.mp member
    exact (MethodDecl.elementary_assemble made).leaves id instruction found
  have named : list.WellNamed := MethodDecl.wellNamed_assemble made
  have refers := Emission.refers_instrs named leaves emitted
  refine ⟨list, assembled, made, ?_, ?_, ?_⟩
  · rw [← registered]
    exact refers
  · intro reference _ name mentioned
    exact Reference.exists_text_eq mentioned
  · simpa only [declared, NameSet.mem_ofList] using MethodDecl.covers_iff made index

namespace Sample

def inheritor : MethodDecl :=
  { name := "run", descriptor := "()V", isStatic := true, maxStack := 1, maxLocals := 0
    code :=
      [.invoke "invokestatic" "t/Main" "help" "()V" [] none false false, .type "new" "I",
       .simple "pop" none, .simple "return" none]
    tryCatch := [] }

def inheritance : ClassIndex :=
  { entries :=
      [{ name := "t/Base", staticMethods := [("help", "()V")] },
       { name := "t/Main", superName := some "t/Base", staticMethods := [("run", "()V")] }] }

end Sample

theorem inherited_call_and_letter_class_undeclared :
    ∃ lowered after list assembled,
      Sample.inheritor.lower "t/Main" Sample.inheritance { reduce := false } .empty =
        (.ok lowered, after) ∧
      Sample.inheritor.assemble UnitState.empty.beginMethod = (.ok list, assembled) ∧
      ¬∀ reference ∈ list.classReferences Sample.inheritance Sample.inheritor.regions,
        ∀ name ∈ reference.className?, Symbol.ofClass name ∈ lowered.dependencies := by
  have made : (Sample.inheritor.lower "t/Main" Sample.inheritance { reduce := false } .empty).1.map
      (·.dependencies) = .ok (NameSet.ofList ["t_Main"]) := by
    decide +kernel
  obtain ⟨lowered, result, declared⟩ := (map_eq_ok_iff ..).mp made
  have success : Sample.inheritor.lower "t/Main" Sample.inheritance { reduce := false } .empty =
      (.ok lowered, _) := Prod.ext result rfl
  obtain ⟨list, assembled, listed, _, _, covered⟩ := dependencies_cover_references_iff rfl success
  refine ⟨lowered, _, list, assembled, success, listed, fun all => ?_⟩
  have missing : (Sample.inheritor.assemble UnitState.empty.beginMethod).1.map
      (fun list => list.instrs.flatMap (Instr.undeclared Sample.inheritance)) =
        .ok ["t/Base", "I"] := by
    decide +kernel
  rw [listed] at missing
  have missing : list.instrs.flatMap (Instr.undeclared Sample.inheritance) = ["t/Base", "I"] := by
    simpa [Except.map] using missing
  have member : "t/Base" ∈ list.instrs.flatMap (Instr.undeclared Sample.inheritance) := by
    simp [missing]
  obtain ⟨instruction, known, undeclared⟩ := List.mem_flatMap.mp member
  have dependency := covered.mp all instruction known "t/Base" undeclared
  rw [declared, NameSet.mem_ofList] at dependency
  exact absurd dependency (by decide +kernel)

end BytecodeToC
