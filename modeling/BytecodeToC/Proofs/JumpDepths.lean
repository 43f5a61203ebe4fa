import BytecodeToC.Proofs.TryTables

/-!
The depths that jumps carry. In a lowered method the depth of a jump is the number of try regions open
at its target, which is also the height of the stack of open regions when the lowering comes to that
label. A depth is computed once and remembered, so the remembered depths have to be right wherever in
the body a jump stands.
-/

namespace BytecodeToC

open Result

namespace MethodScope

/-- Every remembered depth is the number of regions open at its label. -/
def DepthsRight (scope : MethodScope) (labels : List Label) : Prop :=
  ∀ target depth, scope.depths.lookup target = some depth →
    depth = TryTable.openAt labels scope.regions target

theorem depthsRight_of_nil {scope : MethodScope} (none : scope.depths = []) (labels : List Label) :
    scope.DepthsRight labels := by
  intro target depth found
  simp [none] at found

theorem DepthsRight.catchDepth {scope : MethodScope} {labels : List Label}
    (right : scope.DepthsRight labels) (distinct : labels.Nodup)
    (numbered : TryTable.Numbered scope.regions) (nested : TryTable.Nested labels scope.regions)
    (target : Label) :
    (scope.catchDepth target labels).2.DepthsRight labels ∧
      ∀ depth, (scope.catchDepth target labels).1 = .ok depth →
        depth = TryTable.openAt labels scope.regions target := by
  have sum := nested.depthFrom_zero numbered distinct target
  unfold MethodScope.catchDepth
  -- Remembered, or computed now and remembered behind the others.
  split
  next depth found =>
    refine ⟨right, ?_⟩
    rintro _ ⟨rfl⟩
    exact right target _ found
  next missing =>
    rw [sum]
    split
    next computed made =>
      split at made
      · cases made
        refine ⟨?_, by rintro _ ⟨rfl⟩; rfl⟩
        intro label depth found
        rw [List.lookup_append, Option.or_eq_some_iff] at found
        rcases found with old | ⟨_, new⟩
        · exact right label depth old
        · by_cases here : label = target
          · simpa [here] using new.symm
          · simp [List.lookup_cons, beq_false_of_ne here] at new
      · cases made
    next => exact ⟨right, fun depth made => by cases made⟩

theorem depths_markTargets (defined targets : List Label) (scope : MethodScope) :
    (markTargets defined targets scope).2.depths = scope.depths := by
  induction targets generalizing scope with
  | nil => rfl
  | cons target rest ih =>
      simp only [markTargets]
      split
      · rw [ih]
        unfold markReferenced
        split <;> rfl
      · rfl

theorem depths_markLabels (scope : MethodScope) (list : Listing) :
    (scope.markLabels list).2.depths = scope.depths := by
  unfold markLabels
  split
  · rfl
  · exact depths_markTargets ..

end MethodScope

theorem Listing.depths_appendRegions {scope : MethodScope} (none : scope.depths = [])
    (entries : List TryEntry) (list : Listing) :
    (appendRegions entries list scope).2.depths = [] := by
  induction entries generalizing list scope with
  | nil => exact none
  | cons entry rest ih =>
      unfold appendRegions
      split
      · exact ih none list
      · exact ih rfl _

theorem MethodDecl.depths_assemble {method : MethodDecl} {unit after : UnitState} {list : Listing}
    (assembled : method.assemble unit.beginMethod = (.ok list, after)) : after.scope.depths = [] := by
  obtain ⟨pool, _, rfl⟩ := MethodDecl.assemble_eq_ok assembled
  exact Listing.depths_appendRegions rfl method.tryCatch .empty

/-- The jump to a label: with the number of regions open there, once there are regions. -/
def TryTable.jumpInto (labels : List Label) (regions : List Region) (target : Label) : C.Jump :=
  { target, depth := if regions.isEmpty then none else some (openAt labels regions target) }

namespace Emission

open C Emit TryTable

structure Informed (labels : List Label) (regions : List Region) (state : BodyState) : Prop where
  regions : state.scope.regions = regions
  depths : state.scope.DepthsRight labels

theorem jumps_label {scope : MethodScope} {opened after : List Nat} {id : Label} {items : List Item}
    (made : label scope opened id = .ok (items, after)) : items.flatMap Item.jumps = [] := by
  obtain ⟨closed, _, _, _, _, rfl, _⟩ := label_eq_ok made
  have anchors : (if scope.isReferenced id then [Item.anchor id] else []).flatMap Item.jumps = [] := by
    split <;> rfl
  have closes : (closed.map fun seq => Item.stmt (.endTry seq)).flatMap Item.jumps = [] := by
    simp [Item.jumps, Stmt.jump?]
  have opens : ((scope.beginningAt id).reverse.flatMap openRegion).flatMap Item.jumps = [] := by
    rw [List.flatMap_assoc]
    exact List.flatMap_eq_nil_iff.mpr fun region _ => rfl
  rw [List.flatMap_append, List.flatMap_append, anchors, closes, opens]
  rfl

theorem linesOf_jump_label {scope : MethodScope} {opened after : List Nat} {id : Label}
    {items : List Item} (made : label scope opened id = .ok (items, after)) :
    linesOf .jump items = [] := by
  obtain ⟨closed, _, _, _, _, rfl, _⟩ := label_eq_ok made
  refine linesOf_eq_nil fun text printed => ?_
  have scopes : lineKind text = .scope := by
    rw [List.flatMap_append, List.flatMap_append] at printed
    simp only [List.mem_append, List.mem_flatMap] at printed
    rcases printed with (⟨item, anchors, here⟩ | ⟨item, closes, here⟩) | ⟨item, opens, here⟩
    · split at anchors
      · obtain rfl := List.mem_singleton.mp anchors
        obtain rfl := List.mem_singleton.mp here
        exact lineKind_anchor id
      · cases anchors
    · obtain ⟨seq, _, rfl⟩ := List.mem_map.mp closes
      obtain rfl := List.mem_singleton.mp here
      exact lineKind_mark (by simp [Stmt.mark?]) 1
    · obtain ⟨region, _, part⟩ := opens
      simp only [openRegion, List.mem_cons, List.not_mem_nil, or_false] at part
      rcases part with rfl | rfl
      · obtain rfl := List.mem_singleton.mp here
        exact lineKind_saveTry 1 region.seq
      · obtain rfl := List.mem_singleton.mp here
        exact lineKind_mark (by simp [Stmt.mark?]) 1
  rw [scopes]
  decide

section

variable {context : MethodContext} {regions : List Region} (distinct : context.labels.Nodup)
  (numbered : Numbered regions) (nested : Nested context.labels regions)
include distinct numbered nested

theorem ensures_jumpTo (target : Label) :
    Ensures (Informed context.labels regions) (jumpInto context.labels regions target = ·)
      (fun _ => True) (jumpTo context.labels target) := by
  rintro state ⟨rfl, right⟩
  obtain ⟨after, found⟩ := right.catchDepth distinct numbered nested target
  rw [run_jumpTo]
  split
  next some =>
    have filled : state.scope.regions.isEmpty = false := by simpa [MethodScope.hasRegions] using some
    refine ⟨⟨MethodScope.regions_catchDepth .., after⟩, ?_, fun _ _ => trivial⟩
    intro jump made
    obtain ⟨depth, known, rfl⟩ := (map_eq_ok_iff ..).mp made
    simp [jumpInto, filled, found depth known]
  next none =>
    have empty : state.scope.regions.isEmpty = true := by simpa [MethodScope.hasRegions] using none
    refine ⟨⟨rfl, right⟩, ?_, fun _ _ => trivial⟩
    rintro _ ⟨rfl⟩
    simp [jumpInto, empty]

theorem jumps_instr (named : context.list.WellNamed) {instruction : Instr}
    {state middle : BodyState} {items : List Item}
    (ran : (instr context instruction).run.run state = (.ok items, middle))
    (informed : Informed context.labels regions state) :
    Informed context.labels regions middle ∧
      items.flatMap Item.jumps = instruction.jumpTargets.map (jumpInto context.labels regions) ∧
      linesOf .jump items =
        jumpLines (fun target => (jumpInto context.labels regions target).text) instruction := by
  -- Labels do not jump; every other instruction makes its jumps by `jumpTo`.
  cases found : Listing.labelOf? instruction with
  | none =>
      have jumps := ensures_jumpTo distinct numbered nested
      obtain ⟨after, emits, _⟩ := ensures_emits found (fun _ => trivial) (fun _ _ _ => trivial)
        (fun _ _ _ _ informed => ⟨informed.regions, informed.depths⟩) jumps state informed
      rw [ran] at after emits
      refine ⟨after, ?_, (emits items rfl).linesOf_jump named⟩
      have related := List.forall₂_map_left_iff.mpr (emits items rfl).lands.2
      rw [List.forall₂_eq_eq_eq] at related
      exact related.symm
  | some id =>
      obtain rfl := Listing.labelOf?_eq_some found
      obtain ⟨opened, made, rfl⟩ := instr_label_eq_ok ran
      exact ⟨⟨informed.regions, informed.depths⟩, jumps_label made, linesOf_jump_label made⟩

theorem jumps_instrs (named : context.list.WellNamed) {annotate : Bool} {instructions : List Instr}
    {state after : BodyState} {items : List Item}
    (ran : (instrs context annotate instructions).run.run state = (.ok items, after))
    (informed : Informed context.labels regions state) :
    items.flatMap Item.jumps =
        (instructions.flatMap Instr.jumpTargets).map (jumpInto context.labels regions) ∧
      linesOf .jump items = instructions.flatMap
        (jumpLines fun target => (jumpInto context.labels regions target).text) := by
  induction instructions generalizing state items with
  | nil =>
      cases ran
      exact ⟨rfl, rfl⟩
  | cons instruction rest ih =>
      obtain ⟨first, middle, others, here, later, rfl⟩ := instrs_cons_eq_ok ran
      obtain ⟨known, jumps, lines⟩ := jumps_instr distinct numbered nested named here informed
      obtain ⟨following, below⟩ := ih later known
      have silent := (lands_comment (fun _ _ => True) annotate instruction).2
      rw [List.forall₂_nil_left_iff] at silent
      have comment := (routine_comment context annotate instruction).linesOf named
        (show LineKind.jump ≠ .plain by decide)
      constructor
      · rw [List.flatMap_append, List.flatMap_append, silent, jumps, following, List.flatMap_cons,
          List.map_append, List.nil_append]
      · rw [linesOf_append, linesOf_append, comment, lines, below, List.flatMap_cons,
          List.nil_append]

end

/-! The stack of open regions -/

theorem instrs_append_eq_ok {context : MethodContext} {annotate : Bool} {first second : List Instr}
    {state after : BodyState} {items : List Item}
    (ran : (instrs context annotate (first ++ second)).run.run state = (.ok items, after)) :
    ∃ made middle others, (instrs context annotate first).run.run state = (.ok made, middle) ∧
      items = made ++ others := by
  induction first generalizing state items with
  | nil => exact ⟨[], state, items, rfl, rfl⟩
  | cons instruction rest ih =>
      obtain ⟨made, middle, following, here, later, rfl⟩ := instrs_cons_eq_ok ran
      obtain ⟨more, last, others, prefixed, rfl⟩ := ih later
      refine ⟨_, last, others, by simp only [instrs, run_bind, here, prefixed]; rfl, ?_⟩
      simp only [List.append_assoc]

def ComesTo (context : MethodContext) (annotate : Bool) (start : BodyState) (id : Label)
    (state : BodyState) : Prop :=
  ∃ before rest items, context.list.instrs = before ++ .label id :: rest ∧
    (instrs context annotate before).run.run start = (.ok items, state)

variable {context : MethodContext} {annotate : Bool} {start state : BodyState} {id : Label}

theorem exists_comesTo {items : List Item} {after : BodyState}
    (ran : (instrs context annotate context.list.instrs).run.run start = (.ok items, after))
    (member : id ∈ context.list.labels) : ∃ state, ComesTo context annotate start id state := by
  obtain ⟨instruction, stands, found⟩ := List.mem_filterMap.mp member
  obtain rfl := Listing.labelOf?_eq_some found
  obtain ⟨before, rest, split⟩ := List.append_of_mem stands
  rw [split] at ran
  obtain ⟨made, middle, _, reached, _⟩ := instrs_append_eq_ok ran
  exact ⟨middle, before, rest, made, split, reached⟩

theorem ComesTo.length_openRegions (comes : ComesTo context annotate start id state)
    (code : context.labels = context.list.labels) (distinct : context.labels.Nodup)
    (numbered : Numbered start.scope.regions) (closed : start.openRegions = []) :
    state.openRegions.length = openAt context.labels start.scope.regions id := by
  obtain ⟨before, rest, items, split, ran⟩ := comes
  have found : Listing.labelOf? (.label id) = some id := rfl
  have parts : context.labels =
      before.filterMap Listing.labelOf? ++ id :: rest.filterMap Listing.labelOf? := by
    rw [code, Listing.labels, split, List.filterMap_append, List.filterMap_cons_some found]
  have fresh : id ∉ before.filterMap Listing.labelOf? := not_mem_of_split distinct parts
  have opened : OpenAfter start.scope.regions [] start.openRegions := closed ▸ .empty _
  have stack := (openAfter_instrs ran numbered (parts ▸ distinct).of_append_left opened).1.stack
  rw [stack, List.length_map]
  exact length_stillOpen numbered distinct parts fresh

end Emission

/-- In a lowered method every jump carries the number of regions that begin before its target and end
at it or later, which is the height of the stack of open regions when the lowering comes to the
target. Without regions jumps carry nothing. The lines of the code that jump print these jumps, the
branches with their conditions and the switches with their keys. -/
theorem jump_depths_count_open_regions {method : MethodDecl} {owner : String} {index : ClassIndex}
    {options : Options} {unit after : UnitState} {lowered : LoweredMethod}
    (success : method.lower owner index options unit = (.ok lowered, after)) :
    ∃ list assembled, method.assemble unit.beginMethod = (.ok list, assembled) ∧
      let code := list.under options
      let context := (method.header owner).context code lowered.function.locals index
      let start : BodyState := { scope := (assembled.scope.markLabels code).2 }
      lowered.function.body.flatMap C.Item.jumps =
        (code.instrs.flatMap Instr.jumpTargets).map (TryTable.jumpInto code.labels method.regions) ∧
      (∀ target, (TryTable.jumpInto code.labels method.regions target).text =
        if method.regions = [] then "goto " ++ labelName target ++ ";"
        else "JUMP_TO(" ++ labelName target ++ ", " ++
          toString (TryTable.openAt code.labels method.regions target) ++ ");") ∧
      lowered.code = lowered.function.opening ++
        String.join (lowered.function.body.flatMap C.Item.lines) ++ "\x7d\n" ∧
      (lowered.function.body.flatMap C.Item.lines).filter (C.lineKind · = .jump) =
        code.instrs.flatMap
          (C.jumpLines fun target => (TryTable.jumpInto code.labels method.regions target).text) ∧
      (∀ target ∈ code.instrs.flatMap Instr.jumpTargets, target ∈ code.labels) ∧
      ∀ id ∈ code.labels,
        (∃ state, Emission.ComesTo context options.annotate start id state) ∧
        ∀ state, Emission.ComesTo context options.annotate start id state →
          state.openRegions.length = TryTable.openAt code.labels method.regions id := by
  obtain ⟨list, assembled, made, lowering⟩ := MethodDecl.lower_eq_ok success
  obtain ⟨type, scope, lowers⟩ := MethodHeader.lower_eq_ok lowering
  obtain ⟨distinct, regions, targets⟩ := MethodScope.markLabels_eq_ok lowers.marked
  obtain ⟨state, ran, _⟩ := MethodHeader.lowerBody_eq_ok lowers.body
  obtain ⟨emitted, _⟩ := Emission.body_eq_ok ran
  have registered : scope.regions = method.regions :=
    regions.trans (MethodDecl.regions_assemble made)
  have numbered : TryTable.Numbered scope.regions := registered ▸ method.numbered_regions
  have fresh : scope.depths = [] := by
    have kept := assembled.scope.depths_markLabels (list.under options)
    rw [lowers.marked] at kept
    exact kept.trans (MethodDecl.depths_assemble made)
  have ends : ∀ region ∈ scope.regions, region.finish ∈ (list.under options).labels := by
    intro region member
    rw [regions] at member
    refine (targets region.finish (List.mem_append.mpr (.inr ?_))).1
    exact List.mem_flatMap.mpr ⟨region, member, by simp⟩
  have nested := Emission.nested_of_body ran rfl distinct numbered ends rfl
  refine ⟨list, assembled, made, ?_⟩
  intro code context start
  have begins : start = { scope } := by simp only [start, code, lowers.marked]
  have named : code.WellNamed := (MethodDecl.wellNamed_assemble made).under options
  obtain ⟨jumps, lines⟩ := Emission.jumps_instrs distinct numbered nested named emitted
    ⟨rfl, MethodScope.depthsRight_of_nil fresh _⟩
  rw [← registered, begins]
  refine ⟨jumps, ?_, C.Function.text_eq_lines _, lines, ?_, ?_⟩
  · intro target
    cases scope.regions <;> rfl
  · intro target member
    exact (targets target (List.mem_append.mpr (.inl member))).1
  · intro id member
    refine ⟨Emission.exists_comesTo emitted member, fun reached comes => ?_⟩
    exact comes.length_openRegions rfl distinct numbered rfl

def Sample.retrying : MethodDecl :=
  { name := "run", descriptor := "(I)V", isStatic := true, maxStack := 1, maxLocals := 1
    code :=
      [.label 1, .simple "iload_0" none, .jump "ifeq" 3 none, .label 2, .simple "nop" none, .label 3,
       .simple "iload_0" none, .jump "ifne" 2 none, .label 4, .simple "return" none,
       .label 9, .simple "pop" none, .jump "goto" 3 none]
    tryCatch := [⟨2, 3, 9, none⟩, ⟨1, 3, 9, none⟩, ⟨3, 4, 9, none⟩] }

theorem jump_depths_count_open_regions_sample :
    ∃ lowered after, Sample.retrying.lower "t/Main" .empty {} .empty = (.ok lowered, after) ∧
      lowered.function.body.flatMap C.Item.jumps =
        [{ target := 3, depth := some 2 }, { target := 2, depth := some 1 },
         { target := 3, depth := some 2 }] ∧
      (lowered.function.body.flatMap C.Item.lines).filter (C.lineKind · = .jump) =
        ["    if (POP_INT() == 0) JUMP_TO(label_3, 2);\n",
         "    if (POP_INT() != 0) JUMP_TO(label_2, 1);\n",
         "    JUMP_TO(label_3, 2);\n"] ∧
      ∃ context start state, Emission.ComesTo context false start 3 state ∧
        state.openRegions.length = 2 := by
  have accepted : (Sample.retrying.lower "t/Main" .empty {} .empty).1.map (fun _ => ()) = .ok () := by
    decide +kernel
  obtain ⟨lowered, success, _⟩ := (map_eq_ok_iff ..).mp accepted
  have whole : Sample.retrying.lower "t/Main" .empty {} .empty =
      (.ok lowered, (Sample.retrying.lower "t/Main" .empty {} .empty).2) := Prod.ext success rfl
  obtain ⟨list, assembled, made, jumps, _, _, lines, _, heights⟩ :=
    jump_depths_count_open_regions whole
  let jump (target : Label) : String :=
    (TryTable.jumpInto [1, 2, 3, 4, 9] Sample.retrying.regions target).text
  have listed : (Sample.retrying.assemble .empty).1.map (fun list =>
      ((list.under {}).labels, (list.under {}).instrs.flatMap Instr.jumpTargets,
       (list.under {}).instrs.flatMap (C.jumpLines jump))) =
        .ok ([1, 2, 3, 4, 9], [3, 2, 3],
          ["    if (POP_INT() == 0) JUMP_TO(label_3, 2);\n",
           "    if (POP_INT() != 0) JUMP_TO(label_2, 1);\n", "    JUMP_TO(label_3, 2);\n"]) := by
    decide +kernel
  have built : Sample.retrying.assemble .empty = (.ok list, assembled) := made
  rw [built] at listed
  obtain ⟨labels, code⟩ := Prod.mk.inj (Except.ok.inj listed)
  obtain ⟨targets, printed⟩ := Prod.mk.inj code
  rw [labels, targets] at jumps
  rw [labels] at lines
  rw [labels] at heights
  obtain ⟨⟨state, comes⟩, height⟩ := heights 3 (by decide)
  refine ⟨lowered, _, whole, jumps.trans (by decide), lines.trans printed, _, _, state, comes, ?_⟩
  exact (height state comes).trans (by decide)

end BytecodeToC
