import BytecodeToC.Proofs.JumpDepths

/-!
Exception tables and the order in which handlers are found. At run time the handlers of open regions
are searched from the innermost region outwards. Of two open regions the inner one is the one that
begins later in the code, or, if both begin at one label, the one that stands earlier in the table. So
the search follows the table exactly if the table names inner regions before those around them.
-/

namespace BytecodeToC

open Result

namespace TryTable

variable {labels done rest : List Label} {regions : List Region}

/-- No entry of the table begins before a later entry of it and ends after that one has begun. -/
def InnerFirst (labels : List Label) (regions : List Region) : Prop :=
  ∀ earlier ∈ regions, ∀ later ∈ regions, earlier.seq < later.seq →
    ¬(labels.idxOf earlier.start < labels.idxOf later.start ∧
      labels.idxOf later.start < labels.idxOf earlier.finish)

instance (labels : List Label) (regions : List Region) : Decidable (InnerFirst labels regions) :=
  inferInstanceAs (Decidable (∀ earlier ∈ regions, ∀ later ∈ regions, earlier.seq < later.seq →
    ¬(labels.idxOf earlier.start < labels.idxOf later.start ∧
      labels.idxOf later.start < labels.idxOf earlier.finish)))

theorem InnerFirst.pairwise_seq (inner : InnerFirst labels regions) (numbered : Numbered regions)
    (distinct : labels.Nodup) (split : labels = done ++ rest) :
    (stillOpen regions done).Pairwise fun upper lower => upper.seq < lower.seq := by
  refine (pairwise_stillOpen numbered distinct split).imp_of_mem ?_
  intro upper lower one other above
  obtain ⟨known, begun, _⟩ := mem_stillOpen.mp one
  obtain ⟨present, _, unfinished⟩ := mem_stillOpen.mp other
  rw [mem_done_iff_lt_length split] at begun unfinished
  rcases above with starts | ⟨_, less⟩
  · by_contra notLess
    have apart : lower.seq ≠ upper.seq := by
      intro same
      rw [numbered.seq_injective present known same] at starts
      omega
    exact inner lower present upper known (by omega) ⟨starts, by omega⟩
  · exact less

theorem seq_lt_of_above (numbered : Numbered regions) (distinct : labels.Nodup)
    (split : labels = done ++ rest)
    (ordered : (stillOpen regions done).Pairwise fun upper lower => upper.seq < lower.seq)
    {upper lower : Region} (one : upper ∈ stillOpen regions done)
    (other : lower ∈ stillOpen regions done) (above : Above labels upper lower) :
    upper.seq < lower.seq := by
  have downward : (stillOpen regions done).Pairwise fun first second =>
      Above labels first second → first.seq < second.seq := by
    refine ordered.imp ?_
    intro first second less _
    exact less
  have upward : (stillOpen regions done).Pairwise fun first second =>
      Above labels second first → second.seq < first.seq := by
    refine (pairwise_stillOpen numbered distinct split).imp ?_
    intro first second holds reversed
    exact absurd reversed holds.asymm
  exact downward.forall_of_forall_of_flip (fun _ _ self => absurd self self.asymm) upward one other
    above

theorem innerFirst_of_pairwise (numbered : Numbered regions) (distinct : labels.Nodup)
    (nested : Nested labels regions)
    (ordered : ∀ done rest, labels = done ++ rest →
      (stillOpen regions done).Pairwise fun upper lower => upper.seq < lower.seq) :
    InnerFirst labels regions := by
  rintro earlier known later present less ⟨starts, begun⟩
  have member : later.start ∈ labels := by
    apply List.idxOf_lt_length_iff.mp
    have bound : labels.idxOf earlier.finish ≤ labels.length := List.idxOf_le_length
    omega
  obtain ⟨passed, following, parts⟩ := List.append_of_mem member
  have place := idxOf_split parts (not_mem_of_split distinct parts)
  have split : labels = (passed ++ [later.start]) ++ following := by rw [parts, List.append_cons]
  have forward := nested.forward later present
  have opened (region : Region) (member : region ∈ regions)
      (before : labels.idxOf region.start ≤ labels.idxOf later.start)
      (behind : labels.idxOf later.start < labels.idxOf region.finish) :
      region ∈ stillOpen regions (passed ++ [later.start]) := by
    rw [mem_stillOpen, mem_done_iff_lt_length split, mem_done_iff_lt_length split]
    simp only [List.length_append, List.length_singleton]
    exact ⟨member, by omega, by omega⟩
  have top := seq_lt_of_above numbered distinct split (ordered _ _ split)
    (opened later present (Nat.le_refl _) forward) (opened earlier known (by omega) begun)
    (.inl starts)
  omega

theorem innerFirst_iff (numbered : Numbered regions) (distinct : labels.Nodup)
    (nested : Nested labels regions) :
    InnerFirst labels regions ↔ ∀ done rest, labels = done ++ rest →
      (stillOpen regions done).Pairwise fun upper lower => upper.seq < lower.seq :=
  ⟨fun inner _ _ split => inner.pairwise_seq numbered distinct split,
    innerFirst_of_pairwise numbered distinct nested⟩

end TryTable

namespace Emission

open C TryTable

/-- The lowering of the instructions `before` makes `items`, and the marks in them leave the regions
`opened` open, the innermost one first. -/
def LeavesOpen (context : MethodContext) (annotate : Bool) (start : BodyState)
    (before : List Instr) (items : List Item) (opened : List Nat) : Prop :=
  (∃ state, (instrs context annotate before).run.run start = (.ok items, state)) ∧
    balance? [] ((marksFrom none items).map Prod.snd) = some opened

variable {context : MethodContext} {annotate : Bool} {start : BodyState}

section

variable (closed : start.openRegions = []) (numbered : Numbered start.scope.regions)
  (referenced : ∀ region ∈ start.scope.regions, start.scope.isReferenced region.start = true ∧
    start.scope.isReferenced region.finish = true)
include closed numbered referenced

theorem leavesOpen_iff {before : List Instr} {items : List Item} {state : BodyState}
    (ran : (instrs context annotate before).run.run start = (.ok items, state))
    (distinct : (before.filterMap Listing.labelOf?).Nodup) (opened : List Nat) :
    LeavesOpen context annotate start before items opened ↔
      opened = (stillOpen start.scope.regions (before.filterMap Listing.labelOf?)).map (·.seq) := by
  have empty : OpenAfter start.scope.regions [] start.openRegions := closed ▸ .empty _
  have stack := (openAfter_instrs ran numbered distinct empty).1.stack
  have marks := (bracketed_instrs ran (closed ▸ Bracketed.empty _) numbered.nodup_seq distinct
    referenced none).balanced
  rw [List.nil_append, stack, List.nil_append] at marks
  constructor
  · rintro ⟨_, balanced⟩
    exact Option.some.inj (balanced.symm.trans marks)
  · rintro rfl
    exact ⟨⟨state, ran⟩, marks⟩

variable (code : context.labels = context.list.labels) (distinct : context.labels.Nodup)
  {body : List Item} {after : BodyState}
  (ran : (instrs context annotate context.list.instrs).run.run start = (.ok body, after))
include code distinct ran

theorem exists_leavesOpen {before rest : List Instr}
    (split : context.list.instrs = before ++ rest) :
    context.labels = before.filterMap Listing.labelOf? ++ rest.filterMap Listing.labelOf? ∧
      ∃ items others, body = items ++ others ∧
        LeavesOpen context annotate start before items
          ((stillOpen start.scope.regions (before.filterMap Listing.labelOf?)).map (·.seq)) := by
  have labels : context.labels =
      before.filterMap Listing.labelOf? ++ rest.filterMap Listing.labelOf? := by
    rw [code, Listing.labels, split, List.filterMap_append]
  rw [labels] at distinct
  rw [split] at ran
  obtain ⟨items, state, others, here, parts⟩ := instrs_append_eq_ok ran
  refine ⟨labels, items, others, parts, ?_⟩
  exact (leavesOpen_iff closed numbered referenced here distinct.of_append_left _).mpr rfl

theorem leavesOpen_ordered_iff (nested : Nested context.labels start.scope.regions) :
    (∀ before rest items opened, context.list.instrs = before ++ rest →
      LeavesOpen context annotate start before items opened → opened.Pairwise (· < ·)) ↔
    InnerFirst context.labels start.scope.regions := by
  rw [innerFirst_iff numbered distinct nested]
  constructor
  · intro ordered done rest split
    -- The code is cut where its labels are.
    rw [code, Listing.labels] at split
    obtain ⟨before, following, parts, rfl, rfl⟩ := List.filterMap_eq_append_iff.mp split
    obtain ⟨_, items, _, _, leaves⟩ :=
      exists_leavesOpen closed numbered referenced code distinct ran parts
    exact List.pairwise_map.mp (ordered before following items _ parts leaves)
  · intro ordered before rest items opened split leaves
    obtain ⟨labels, _⟩ := exists_leavesOpen closed numbered referenced code distinct ran split
    have passed : (before.filterMap Listing.labelOf?).Nodup := (labels ▸ distinct).of_append_left
    obtain ⟨state, here⟩ := leaves.1
    obtain rfl := (leavesOpen_iff closed numbered referenced here passed opened).mp leaves
    exact List.pairwise_map.mpr (ordered _ _ labels)

end

end Emission

/-- At every point of a lowered method the regions that have begun and not ended are open, and of two
of them the inner one is the one that begins later or, if both begin at one label, the one that stands
earlier in the table. The innermost-first order is the order of the table at every point exactly if no
entry begins before a later one and ends after that one has begun. -/
theorem open_regions_follow_table_iff {method : MethodDecl} {owner : String} {index : ClassIndex}
    {options : Options} {unit after : UnitState} {lowered : LoweredMethod}
    (success : method.lower owner index options unit = (.ok lowered, after)) :
    ∃ list assembled, method.assemble unit.beginMethod = (.ok list, assembled) ∧
      let code := list.under options
      let context := (method.header owner).context code lowered.function.locals index
      let start : BodyState := { scope := (assembled.scope.markLabels code).2 }
      (∀ before rest, code.instrs = before ++ rest →
        ∃ (items others : List C.Item) (stack : List Region),
          lowered.function.body = items ++ others ∧
          Emission.LeavesOpen context options.annotate start before items (stack.map (·.seq)) ∧
          (∀ region, region ∈ stack ↔ region ∈ method.regions ∧
            region.start ∈ before.filterMap Listing.labelOf? ∧
            region.finish ∉ before.filterMap Listing.labelOf?) ∧
          stack.Pairwise (TryTable.Above code.labels)) ∧
      ((∀ before rest items opened, code.instrs = before ++ rest →
          Emission.LeavesOpen context options.annotate start before items opened →
          opened.Pairwise (· < ·)) ↔
        TryTable.InnerFirst code.labels method.regions) := by
  obtain ⟨list, assembled, made, lowering⟩ := MethodDecl.lower_eq_ok success
  obtain ⟨type, scope, lowers⟩ := MethodHeader.lower_eq_ok lowering
  obtain ⟨distinct, regions, targets⟩ := MethodScope.markLabels_eq_ok lowers.marked
  obtain ⟨state, ran, _⟩ := MethodHeader.lowerBody_eq_ok lowers.body
  obtain ⟨emitted, _⟩ := Emission.body_eq_ok ran
  have registered : scope.regions = method.regions :=
    regions.trans (MethodDecl.regions_assemble made)
  have numbered : TryTable.Numbered scope.regions := registered ▸ method.numbered_regions
  have marked (region : Region) (member : region ∈ scope.regions) (label : Label)
      (mentioned : label ∈ [region.start, region.finish, region.handler]) :
      label ∈ (list.under options).labels ∧ scope.isReferenced label = true := by
    rw [regions] at member
    apply targets
    exact List.mem_append.mpr (.inr (List.mem_flatMap.mpr ⟨region, member, mentioned⟩))
  have nested := Emission.nested_of_body ran rfl distinct numbered
    (fun region member => (marked region member _ (by simp)).1) rfl
  have referenced (region : Region) (member : region ∈ scope.regions) :
      scope.isReferenced region.start = true ∧ scope.isReferenced region.finish = true :=
    ⟨(marked region member _ (by simp)).2, (marked region member _ (by simp)).2⟩
  refine ⟨list, assembled, made, ?_⟩
  intro code context start
  have begins : start = { scope } := by simp only [start, code, lowers.marked]
  rw [← registered, begins]
  constructor
  · intro before rest split
    obtain ⟨labels, items, others, parts, leaves⟩ :=
      Emission.exists_leavesOpen rfl numbered referenced rfl distinct emitted split
    exact ⟨items, others, _, parts, leaves, fun region => TryTable.mem_stillOpen,
      TryTable.pairwise_stillOpen numbered distinct labels⟩
  · exact Emission.leavesOpen_ordered_iff rfl numbered referenced rfl distinct emitted nested

def Sample.outerFirst : MethodDecl :=
  { Sample.guarded with tryCatch := [⟨1, 4, 9, none⟩, ⟨2, 3, 9, none⟩] }

/-- An entry that stands first in the table and is open can still be searched last. -/
theorem first_entry_searched_last :
    Sample.outerFirst.regions.map (·.seq) = [0, 1] ∧
    ∃ lowered after, Sample.outerFirst.lower "t/Main" .empty {} .empty = (.ok lowered, after) ∧
      ∃ items others, lowered.function.body = items ++ others ∧
        C.balance? [] ((C.marksFrom none items).map Prod.snd) = some [1, 0] := by
  refine ⟨by decide, ?_⟩
  have accepted : (Sample.outerFirst.lower "t/Main" .empty {} .empty).1.map (fun lowered =>
      C.balance? [] ((C.marksFrom none (lowered.function.body.take 6)).map Prod.snd)) =
        .ok (some [1, 0]) := by
    decide +kernel
  obtain ⟨lowered, success, opened⟩ := (map_eq_ok_iff ..).mp accepted
  refine ⟨lowered, _, Prod.ext success rfl, lowered.function.body.take 6,
    lowered.function.body.drop 6, ?_, opened⟩
  exact (List.take_append_drop 6 _).symm

theorem open_regions_follow_table_iff_samples :
    (∃ lowered after list start,
      Sample.retrying.lower "t/Main" .empty {} .empty = (.ok lowered, after) ∧
      Sample.retrying.assemble .empty = (.ok list, start) ∧
      let code := list.under {}
      let context := (Sample.retrying.header "t/Main").context code lowered.function.locals .empty
      ∀ before rest items opened, code.instrs = before ++ rest →
        Emission.LeavesOpen context false { scope := (start.scope.markLabels code).2 } before items
          opened → opened.Pairwise (· < ·)) ∧
    ∃ lowered after list start,
      Sample.outerFirst.lower "t/Main" .empty {} .empty = (.ok lowered, after) ∧
      Sample.outerFirst.assemble .empty = (.ok list, start) ∧
      let code := list.under {}
      let context := (Sample.outerFirst.header "t/Main").context code lowered.function.locals .empty
      ∃ before rest items opened, code.instrs = before ++ rest ∧
        Emission.LeavesOpen context false { scope := (start.scope.markLabels code).2 } before items
          opened ∧ ¬opened.Pairwise (· < ·) := by
  have lowers (method : MethodDecl)
      (accepted : (method.lower "t/Main" .empty {} .empty).1.map (fun _ => ()) = .ok ()) :
      ∃ lowered, method.lower "t/Main" .empty {} .empty =
        (.ok lowered, (method.lower "t/Main" .empty {} .empty).2) := by
    obtain ⟨lowered, success, _⟩ := (map_eq_ok_iff ..).mp accepted
    exact ⟨lowered, Prod.ext success rfl⟩
  have labels {method : MethodDecl} {list : Listing} {start : UnitState}
      (made : method.assemble .empty = (.ok list, start))
      (listed : (method.assemble .empty).1.map (fun list => (list.under {}).labels) =
        .ok [1, 2, 3, 4, 9]) : (list.under {}).labels = [1, 2, 3, 4, 9] := by
    rw [made] at listed
    exact Except.ok.inj listed
  constructor
  · obtain ⟨lowered, success⟩ := lowers Sample.retrying (by decide +kernel)
    obtain ⟨list, start, made, _, ordered⟩ := open_regions_follow_table_iff success
    rw [labels made (by decide +kernel)] at ordered
    exact ⟨lowered, _, list, start, success, made, ordered.mpr (by decide)⟩
  · obtain ⟨lowered, success⟩ := lowers Sample.outerFirst (by decide +kernel)
    obtain ⟨list, start, made, _, ordered⟩ := open_regions_follow_table_iff success
    rw [labels made (by decide +kernel)] at ordered
    have unordered := mt ordered.mp (by decide)
    push Not at unordered
    exact ⟨lowered, _, list, start, success, made, unordered⟩

end BytecodeToC
