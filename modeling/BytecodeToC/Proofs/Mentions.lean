import BytecodeToC.Proofs.Arena
import BytecodeToC.Proofs.Declarations

/-!
Which locals a lowered body mentions. A body mentions a local where another name for it gives another
body. Renaming a local that no instruction touched before folding, and that is no parameter, changes
nothing, so that folding brings no names of its own into a body.
-/

namespace BytecodeToC

open Result

namespace Listing

def renamed (list : Listing) (names : List ((Slot × StackType) × String)) : Listing :=
  { list with names }

/-- New names that differ from the old ones for one local at most. -/
def RenamesOnly (list : Listing) (names : List ((Slot × StackType) × String))
    (place : Slot × StackType) : Prop :=
  ∀ slot type, (slot, type) ≠ place →
    (list.renamed names).localName slot type = list.localName slot type

variable {list : Listing} {names : List ((Slot × StackType) × String)} {place : Slot × StackType}

theorem RenamesOnly.localAccess (only : list.RenamesOnly names place) {op : Opcode} {slot : Slot}
    (apart : op.localType?.map (fun type => (slot, type)) ≠ some place) (delta : Option Int32) :
    Emission.localAccess (list.renamed names) op slot delta =
      Emission.localAccess list op slot delta := by
  cases found : op.localType? with
  | none => simp [Emission.localAccess, found]
  | some type =>
      have same := only slot type (by simpa [found] using apart)
      simp [Emission.localAccess, found, same]

theorem RenamesOnly.localValue? (only : list.RenamesOnly names place) {op : Opcode} {slot : Slot}
    (apart : op.localType?.map (fun type => (slot, type)) ≠ some place) :
    (list.renamed names).localValue? op slot = list.localValue? op slot := by
  cases found : op.localType? with
  | none => simp [Listing.localValue?, found]
  | some type =>
      have same := only slot type (by simpa [found] using apart)
      simp [Listing.localValue?, found, same]

theorem RenamesOnly.leafValue? (only : list.RenamesOnly names place) {instr : Instr}
    (apart : LocalTable.touched? instr ≠ some place) :
    (list.renamed names).leafValue? instr = list.leafValue? instr := by
  cases instr with
  | localVar op slot delta => simp only [Listing.leafValue?, only.localValue? apart]
  | namedLocal op slot name tag delta => simp only [Listing.leafValue?, only.localValue? apart]
  | _ => rfl

end Listing

/-! Expressions -/

theorem Instr.touched?_plain (instr : Instr) :
    LocalTable.touched? instr.plain = LocalTable.touched? instr := by
  cases instr <;> rfl

namespace ExprTree

variable {list : Listing} {names : List ((Slot × StackType) × String)} {place : Slot × StackType}

theorem operand?_renamed (only : list.RenamesOnly names place) {tree : ExprTree}
    (apart : ∀ instr ∈ tree.code, LocalTable.touched? instr ≠ some place) :
    tree.operand? (list.renamed names) = tree.operand? list := by
  induction tree with
  | leaf instr =>
      refine only.leafValue? ?_
      rw [← instr.touched?_plain]
      exact apart _ (by simp [code])
  | unary node operand ih =>
      have inner := ih fun instr member => apart instr (by simp [code, member])
      cases node <;> simp only [operand?, inner]
  | binary node left right ihLeft ihRight =>
      have first := ihLeft fun instr member => apart instr (by simp [code, member])
      have second := ihRight fun instr member => apart instr (by simp [code, member])
      simp only [operand?, first, second]

theorem pushed?_renamed (only : list.RenamesOnly names place) {tree : ExprTree}
    (apart : ∀ instr ∈ tree.code, LocalTable.touched? instr ≠ some place) :
    tree.pushed? (list.renamed names) = tree.pushed? list := by
  unfold pushed?
  split
  · exact operand?_renamed only fun instr member => apart instr (by simp [code, member])
  · exact operand?_renamed only apart

end ExprTree

namespace Listing

theorem StandsFor.exists_of_mem {list : Listing} {forest : List ExprTree}
    (stands : list.StandsFor forest) {id : NodeId} (member : id ∈ list.order) :
    ∃ tree ∈ forest, list.Denotes id tree := by
  unfold StandsFor at stands
  generalize list.order = order at stands member
  induction stands with
  | nil => simp at member
  | @cons first tree _ _ denotes _ ih =>
      rcases List.mem_cons.mp member with rfl | later
      · exact ⟨tree, by simp, denotes⟩
      · obtain ⟨other, listed, found⟩ := ih later
        exact ⟨other, by simp [listed], found⟩

theorem Elementary.code_subset {list last : Listing} {count : Nat} (elementary : list.Elementary)
    (run : FoldRun count list last) {id : NodeId} (member : id ∈ last.order) {tree : ExprTree}
    (denotes : last.Denotes id tree) : tree.code ⊆ list.instrs.map Instr.plain := by
  obtain ⟨shorter, steps, represents, _⟩ := elementary.represents.foldRun run
  obtain ⟨other, listed, again⟩ := represents.trees.exists_of_mem member
  obtain rfl := denotes.unique again
  have code : shorter.flatMap ExprTree.code = list.instrs.map Instr.plain := by
    rw [steps.code_eq, List.flatMap_map]
    simp [ExprTree.code, ← List.map_eq_flatMap]
  intro instr part
  rw [← code]
  exact List.mem_flatMap.mpr ⟨_, listed, part⟩

theorem Sound.render_renamed {list : Listing} (sound : list.Sound)
    {names : List ((Slot × StackType) × String)} {place : Slot × StackType}
    (only : list.RenamesOnly names place) {id : NodeId} {instr : Instr}
    (found : list.node? id = some instr) (composite : instr.operands ≠ [])
    (apart : ∀ tree, list.Denotes id tree →
      ∀ part ∈ tree.code, LocalTable.touched? part ≠ some place) :
    (list.renamed names).render instr = list.render instr := by
  obtain ⟨tree, value, denotes, _, pushed, rendered⟩ := sound.render found composite
  have kept (other : NodeId) (node : Instr) (same : list.node? other = some node) :
      (list.renamed names).node? other = some node := same
  have descending : (list.renamed names).Descending := sound.descending
  rw [rendered, ← toOption_eq_some_iff, (denotes.mono kept).render descending found composite,
    ExprTree.pushed?_renamed only (apart tree denotes), pushed]

end Listing

/-! Bodies -/

theorem Emission.instrs_congr {context other : MethodContext} {given : List Instr}
    (same : ∀ instr ∈ given, Emission.instr context instr = Emission.instr other instr)
    (annotate : Bool) :
    Emission.instrs context annotate given = Emission.instrs other annotate given := by
  induction given with
  | nil => rfl
  | cons instr rest ih =>
      have later := ih fun other member => same other (by simp [member])
      simp only [Emission.instrs, same instr (by simp), later]

section Bodies

variable {list last : Listing} {count : Nat} {names : List ((Slot × StackType) × String)}
  {place : Slot × StackType} (elementary : list.Elementary)
  (run : Listing.FoldRun count list last) (only : last.RenamesOnly names place)
  (untouched : place ∉ LocalTable.touched list)
include elementary run only untouched

theorem Emission.instr_renamed (header : MethodHeader) (locals : List LocalVar) (index : ClassIndex)
    {instr : Instr} (member : instr ∈ last.instrs) :
    Emission.instr (header.context (last.renamed names) locals index) instr =
      Emission.instr (header.context last locals index) instr := by
  have apart (part : Instr) (listed : part ∈ list.instrs) :
      LocalTable.touched? part ≠ some place := fun touches =>
    untouched (List.mem_filterMap.mpr ⟨part, listed, touches⟩)
  have leaf (none : instr.operands = []) : LocalTable.touched? instr ≠ some place :=
    apart instr (elementary.mem_of_reduces (.foldRun run) member none)
  -- The names in an expression are those of the loads that were folded into it.
  have composite (inner : instr.operands ≠ []) :
      Emission.expression (last.renamed names) instr = Emission.expression last instr := by
    obtain ⟨id, placed, found⟩ := List.mem_filterMap.mp member
    have sound := elementary.sound.foldRun run
    have same : (last.renamed names).render instr = last.render instr := by
      refine sound.render_renamed only found inner fun tree denotes part inside => ?_
      obtain ⟨origin, listed, rfl⟩ :=
        List.mem_map.mp (elementary.code_subset run placed denotes inside)
      rw [origin.touched?_plain]
      exact apart origin listed
    rw [Emission.expression, Emission.expression, same]
  cases instr with
  | localVar op slot delta =>
      simp only [Emission.instr, MethodHeader.context, only.localAccess (leaf rfl)]
  | namedLocal op slot name tag delta =>
      simp only [Emission.instr, MethodHeader.context, only.localAccess (leaf rfl)]
  | arith op left right =>
      have inner : Instr.operands (.arith op left right) ≠ [] := by
        cases right <;> simp [Instr.operands]
      simp only [Emission.instr, MethodHeader.context, composite inner]
  | arrayLoad op array index =>
      simp only [Emission.instr, MethodHeader.context, composite (by simp [Instr.operands])]
  | arrayLength array =>
      simp only [Emission.instr, MethodHeader.context, composite (by simp [Instr.operands])]
  | dup source =>
      simp only [Emission.instr, MethodHeader.context, composite (by simp [Instr.operands])]
  | _ => rfl

theorem MethodHeader.lowerBody_renamed (header : MethodHeader) (locals : List LocalVar)
    (index : ClassIndex) (annotate : Bool) (unit : UnitState) :
    header.lowerBody (last.renamed names) locals index annotate unit =
      header.lowerBody last locals index annotate unit := by
  have items : Emission.instrs (header.context (last.renamed names) locals index) annotate
        last.instrs =
      Emission.instrs (header.context last locals index) annotate last.instrs :=
    Emission.instrs_congr
      (fun _ => Emission.instr_renamed elementary run only untouched header locals index) annotate
  have body : Emission.body (header.context (last.renamed names) locals index) annotate =
      Emission.body (header.context last locals index) annotate := by
    unfold Emission.body
    exact congrArg (fun items => items >>= _) items
  cases ran : (Emission.body (header.context last locals index) annotate).run.run
      { scope := unit.scope } with
  | mk result state =>
      rw [lowerBody_eq _ _ _ _ _ _ ran, lowerBody_eq _ _ _ _ _ _ (body ▸ ran)]

end Bodies

namespace LocalTable

variable (list : Listing) (names : List ((Slot × StackType) × String))

def renamedVar (var : LocalVar) : LocalVar :=
  { var with name := (list.renamed names).localName var.slot var.type }

theorem params_renamed (slot : Slot) (types : List FieldType) :
    params (list.renamed names) slot types =
      (params list slot types).map (renamedVar list names) := by
  induction types generalizing slot with
  | nil => rfl
  | cons type rest ih => simp [params, ih, renamedVar]

theorem others_renamed (vars : List LocalVar) :
    others (list.renamed names) (vars.map (renamedVar list names)) =
      (others list vars).map (renamedVar list names) := by
  simp only [others, List.any_map, List.map_map]
  rfl

theorem ofType_renamed (isStatic : Bool) (type : MethodType) :
    ofType (list.renamed names) isStatic type =
      (ofType list isStatic type).map (renamedVar list names) := by
  have given : given (list.renamed names) isStatic type =
      (given list isStatic type).map (renamedVar list names) := by
    cases isStatic with
    | true => exact params_renamed list names 0 type.params
    | false => exact congrArg (_ :: ·) (params_renamed list names 1 type.params)
  rw [ofType_eq, ofType_eq, given, others_renamed, List.map_append]

end LocalTable

theorem Listing.Elementary.touched_subset {list last : Listing} (elementary : list.Elementary)
    (reduces : list.Reduces last) : LocalTable.touched last ⊆ LocalTable.touched list := by
  intro place member
  obtain ⟨instr, listed, touches⟩ := List.mem_filterMap.mp member
  have leaf : instr.operands = [] := by
    cases instr with
    | localVar op slot delta => rfl
    | namedLocal op slot name tag delta => rfl
    | _ => simp [LocalTable.touched?] at touches
  exact List.mem_filterMap.mpr ⟨instr, elementary.mem_of_reduces reduces listed leaf, touches⟩

theorem Listing.Elementary.touched_iff {list : Listing} (elementary : list.Elementary)
    (place : Slot × StackType) :
    place ∈ LocalTable.touched list ↔
      place ∈ list.absorbed.filterMap LocalTable.touched? ∨
        place ∈ LocalTable.touched list.fold.1 := by
  constructor
  · intro member
    obtain ⟨instr, listed, touches⟩ := List.mem_filterMap.mp member
    rcases (elementary.mem_instrs_iff instr).mp listed with gone | ⟨still, _⟩
    · exact .inl (List.mem_filterMap.mpr ⟨instr, gone, touches⟩)
    · exact .inr (List.mem_filterMap.mpr ⟨instr, still, touches⟩)
  · rintro (gone | still)
    · obtain ⟨instr, listed, touches⟩ := List.mem_filterMap.mp gone
      exact List.mem_filterMap.mpr ⟨instr, elementary.absorbed_subset listed, touches⟩
    · exact elementary.touched_subset list.reduces_fold still

theorem Listing.Elementary.touched_under {list : Listing} (elementary : list.Elementary)
    (options : Options) {place : Slot × StackType} (touched : place ∈ LocalTable.touched list) :
    place ∈ LocalTable.touched (list.under options) ∨
      options.reduce = true ∧ place ∈ list.absorbed.filterMap LocalTable.touched? := by
  unfold under
  split
  next reduce =>
    rcases (elementary.touched_iff place).mp touched with gone | still
    · exact .inr ⟨reduce, gone⟩
    · exact .inl still
  next => exact .inl touched

theorem Listing.exists_run_under (list : Listing) (options : Options) :
    ∃ count, FoldRun count list (list.under options) := by
  unfold under
  split
  · exact ⟨_, list.fold_run⟩
  · exact ⟨0, .done list⟩

def UnitState.marked (unit : UnitState) (list : Listing) : UnitState :=
  { unit with scope := (unit.scope.markLabels list).2 }

namespace MethodHeader

/-- A body mentions a local if another name for the local gives another body. -/
def Mentions (header : MethodHeader) (type : MethodType) (list : Listing) (index : ClassIndex)
    (annotate : Bool) (unit : UnitState) (body : List C.Item) (place : Slot × StackType) : Prop :=
  ∃ names, list.RenamesOnly names place ∧
    ∀ virtualCalls, (header.lowerBody (list.renamed names)
      (LocalTable.ofType (list.renamed names) header.isStatic type) index annotate unit).1 ≠
        .ok (body, virtualCalls)

theorem touched_or_given_of_mentions {header : MethodHeader} {type : MethodType}
    {list last : Listing} {count : Nat} (elementary : list.Elementary)
    (run : Listing.FoldRun count list last) {index : ClassIndex} {annotate : Bool}
    {unit after : UnitState} {body : List C.Item} {virtualCalls : NameSet}
    (made : header.lowerBody last (LocalTable.ofType last header.isStatic type) index annotate unit =
      (.ok (body, virtualCalls), after)) {place : Slot × StackType}
    (mentions : header.Mentions type last index annotate unit body place) :
    place ∈ LocalTable.touched list ∨ place ∈ LocalTable.givenPlaces last header.isStatic type := by
  by_contra absent
  obtain ⟨untouched, notGiven⟩ := not_or.mp absent
  obtain ⟨names, only, changes⟩ := mentions
  have undeclared : place ∉ (LocalTable.ofType last header.isStatic type).map LocalVar.place := by
    have untouchedNow : place ∉ LocalTable.touched last :=
      fun member => untouched (elementary.touched_subset (.foldRun run) member)
    rw [← List.count_eq_zero, LocalTable.count_ofType, List.count_eq_zero.mpr notGiven]
    simp [untouchedNow]
  have locals : LocalTable.ofType (last.renamed names) header.isStatic type =
      LocalTable.ofType last header.isStatic type := by
    rw [LocalTable.ofType_renamed]
    refine (List.map_congr_left fun var member => ?_).trans (List.map_id' _)
    have other : var.place ≠ place := fun same => undeclared (List.mem_map.mpr ⟨var, member, same⟩)
    have name := only var.slot var.type other
    rw [LocalTable.renamedVar, name, ← LocalTable.name_of_mem member]
  refine changes virtualCalls ?_
  rw [locals, lowerBody_renamed elementary run only untouched, made]

end MethodHeader

/-- A local that the assembled code touches or the lowered body mentions. -/
def MethodDecl.Uses (method : MethodDecl) (owner : String) (index : ClassIndex) (options : Options)
    (type : MethodType) (list : Listing) (built : UnitState) (body : List C.Item)
    (place : Slot × StackType) : Prop :=
  place ∈ LocalTable.touched list ∨
    (method.header owner).Mentions type (list.under options) index options.annotate
      (built.marked (list.under options)) body place

/-- The locals that a method uses are each declared once, exactly if the locals of absorbed loads are
parameters or touched elsewhere, and no local is two parameters. -/
theorem locals_declared_once_iff {method : MethodDecl} {owner : String} {index : ClassIndex}
    {options : Options} {unit built after : UnitState} {list : Listing} {type : MethodType}
    {lowered : LoweredMethod}
    (assembled : method.assemble unit.beginMethod = (.ok list, built))
    (parsed : MethodType.parse method.descriptor = .ok type)
    (success : method.lower owner index options unit = (.ok lowered, after)) :
    ((∀ place, method.Uses owner index options type list built lowered.function.body place →
        LocalTable.DeclaresOnce (list.under options) lowered.function.locals place) ↔
      (options.reduce = true →
        ∀ place ∈ list.absorbed.filterMap LocalTable.touched?,
          place ∈ LocalTable.givenPlaces (list.under options) method.isStatic type ∨
            place ∈ LocalTable.touched (list.under options)) ∧
      ∀ place, method.Uses owner index options type list built lowered.function.body place →
        (LocalTable.givenPlaces (list.under options) method.isStatic type).count place ≤ 1) ∧
    (LocalTable.slots method.isStatic type ≤ 65536 →
      (LocalTable.givenPlaces (list.under options) method.isStatic type).Nodup) := by
  have elementary := MethodDecl.elementary_assemble assembled
  obtain ⟨_, _, again, lowers⟩ := MethodDecl.lower_eq_ok success
  cases assembled.symm.trans again
  obtain ⟨_, scope, facts⟩ := MethodHeader.lower_eq_ok lowers
  cases parsed.symm.trans facts.parsed
  obtain ⟨count, run⟩ := list.exists_run_under options
  have named : (list.under options).WellNamed :=
    (MethodDecl.wellNamed_assemble assembled).of_names (Listing.Reduces.foldRun run).names
  have made := facts.body
  rw [facts.locals] at made ⊢
  have declares := LocalTable.declaresOnce_iff named method.isStatic type
  have marked : built.marked (list.under options) = { built with scope } := by
    rw [UnitState.marked, facts.marked]
  have origin (place : Slot × StackType)
      (uses : method.Uses owner index options type list built lowered.function.body place) :
      place ∈ LocalTable.touched list ∨
        place ∈ LocalTable.givenPlaces (list.under options) method.isStatic type := by
    rcases uses with touched | mentions
    · exact .inl touched
    · rw [marked] at mentions
      exact MethodHeader.touched_or_given_of_mentions elementary run made mentions
  refine ⟨⟨fun declared => ⟨fun _ place absorbed => ?_, fun place uses => ?_⟩, ?_⟩,
    fun fits => LocalTable.nodup_given _ fits⟩
  · have touched := (elementary.touched_iff place).mpr (.inl absorbed)
    rcases (declares place).mp (declared place (.inl touched)) with once | ⟨_, still⟩
    · exact .inl (List.count_pos_iff.mp (by omega))
    · exact .inr still
  · rcases (declares place).mp (declared place uses) with once | ⟨absent, _⟩
    · omega
    · rw [List.count_eq_zero.mpr absent]
      omega
  · rintro ⟨elsewhere, single⟩ place uses
    refine (declares place).mpr ?_
    by_cases early : place ∈ LocalTable.givenPlaces (list.under options) method.isStatic type
    · have some := List.count_pos_iff.mpr early
      have one := single place uses
      exact .inl (by omega)
    · have touched := (origin place uses).resolve_right early
      rcases elementary.touched_under options touched with still | ⟨reduce, gone⟩
      · exact .inr ⟨early, still⟩
      · exact .inr ⟨early, (elsewhere reduce place gone).resolve_left early⟩

namespace Sample

def unset : MethodDecl :=
  { name := "run", descriptor := "()I", isStatic := true, maxStack := 2, maxLocals := 1
    code :=
      [.simple "iload_0" none, .simple "iconst_1" none, .simple "iadd" none, .simple "ireturn" none]
    tryCatch := [] }

def unsetListing : Listing :=
  { nodes :=
      #[.localVar .iload 0 none, .basic .iconst1 none, .basic ⟨0x60⟩ none, .basic .ireturn none]
    order := [0, 1, 2, 3] }

def unsetBody : List C.Item :=
  [.stmt (.push .int "(ilocals_0_ + 1)"), .block [.pop .int "__ret", .returnValue .int "__ret"]]

def unsetType : MethodType := { params := [], result := some (.primitive .int) }

theorem mentions_unset :
    (unset.header "t/Main").Mentions unsetType (unsetListing.under {}) .empty false
      (UnitState.empty.marked (unsetListing.under {})) unsetBody (0, .int) := by
  refine ⟨[((0, .int), "x")], ?_, ?_⟩
  · intro slot type other
    have names : (unsetListing.under {}).names = [] := by decide +kernel
    have absent : ((slot, type) == ((0, .int) : Slot × StackType)) = false := by simpa using other
    simp [Listing.localName, Listing.boundName?, Listing.renamed, List.lookup_cons, absent, names]
  · intro virtualCalls same
    have body := congrArg (fun result => result.map Prod.fst) same
    revert body
    simp only [Except.map]
    decide +kernel

end Sample

theorem folded_load_undeclared :
    ∃ lowered after,
      Sample.unset.lower "t/Main" .empty {} .empty = (.ok lowered, after) ∧
      lowered.function.locals = [] ∧ lowered.function.body = Sample.unsetBody ∧
      Sample.unset.Uses "t/Main" .empty {} Sample.unsetType Sample.unsetListing .empty
        lowered.function.body (0, .int) ∧
      ¬∀ place, Sample.unset.Uses "t/Main" .empty {} Sample.unsetType Sample.unsetListing .empty
          lowered.function.body place →
        LocalTable.DeclaresOnce (Sample.unsetListing.under {}) lowered.function.locals place := by
  have assembled : Sample.unset.assemble UnitState.empty.beginMethod =
      (.ok Sample.unsetListing, .empty) := by decide
  have parsed : MethodType.parse Sample.unset.descriptor = .ok Sample.unsetType := by
    decide +kernel
  have made : (Sample.unset.lower "t/Main" .empty {} .empty).1.map
      (fun lowered => (lowered.function.locals, lowered.function.body)) =
        .ok ([], Sample.unsetBody) := by
    decide +kernel
  obtain ⟨lowered, result, same⟩ := (map_eq_ok_iff ..).mp made
  obtain ⟨locals, body⟩ := Prod.mk.inj same
  have success : Sample.unset.lower "t/Main" .empty {} .empty = (.ok lowered, _) :=
    Prod.ext result rfl
  have absorbed : (0, .int) ∈ Sample.unsetListing.absorbed.filterMap LocalTable.touched? := by
    decide +kernel
  have declares := (locals_declared_once_iff assembled parsed success).1
  refine ⟨lowered, _, success, locals, body, .inr (body ▸ Sample.mentions_unset), ?_⟩
  intro declared
  have nowhere := (declares.mp declared).1 rfl _ absorbed
  exact absurd nowhere (by decide +kernel)

end BytecodeToC
