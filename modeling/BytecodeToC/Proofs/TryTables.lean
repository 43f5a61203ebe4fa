import BytecodeToC.Proofs.OpenRegions

/-!
Which exception tables a body accepts. A table is nested if every region begins before it ends, no
two regions cross, and of two regions that begin together the one that ends first was registered
first. A nested table never makes a lowering complain about its try regions, and a body with any other
table is never lowered.

Two checks have to agree on this: the stack of open regions, which labels maintain, and the running
sum of regions begun less regions ended, which jumps compute.
-/

namespace BytecodeToC

open Result

namespace TryTable

variable {labels done rest : List Label} {regions : List Region} {id : Label}

/-! The order of labels -/

theorem not_mem_of_split (distinct : labels.Nodup) (split : labels = done ++ id :: rest) :
    id ∉ done := by
  intro old
  exact List.disjoint_of_nodup_append (split ▸ distinct) old (by simp)

theorem mem_done_iff_lt_length (split : labels = done ++ rest) (label : Label) :
    label ∈ done ↔ labels.idxOf label < done.length := by
  subst split
  rw [List.idxOf_append]
  split
  next member => simpa [member] using List.idxOf_lt_length_iff.mpr member
  next absent => simp [absent]

theorem idxOf_split (split : labels = done ++ id :: rest) (fresh : id ∉ done) :
    labels.idxOf id = done.length := by
  simp [split, List.idxOf_append, fresh]

theorem mem_done_iff (split : labels = done ++ id :: rest) (fresh : id ∉ done) (label : Label) :
    label ∈ done ↔ labels.idxOf label < labels.idxOf id := by
  rw [mem_done_iff_lt_length split, idxOf_split split fresh]

theorem mem_stillOpen_iff (split : labels = done ++ id :: rest) (fresh : id ∉ done)
    {region : Region} :
    region ∈ stillOpen regions done ↔ region ∈ regions ∧
      labels.idxOf region.start < labels.idxOf id ∧ labels.idxOf id ≤ labels.idxOf region.finish := by
  rw [mem_stillOpen, mem_done_iff split fresh, mem_done_iff split fresh, Nat.not_lt]

def Above (labels : List Label) (inner outer : Region) : Prop :=
  labels.idxOf outer.start < labels.idxOf inner.start ∨
    inner.start = outer.start ∧ inner.seq < outer.seq

theorem pairwise_stillOpen (numbered : Numbered regions) (distinct : labels.Nodup)
    (split : labels = done ++ rest) : (stillOpen regions done).Pairwise (Above labels) := by
  have ordered : labels.Pairwise fun first second => labels.idxOf first < labels.idxOf second := by
    refine List.pairwise_iff_getElem.mpr fun first second one other less => ?_
    rwa [distinct.idxOf_getElem, distinct.idxOf_getElem]
  have passed : done.Pairwise fun first second => labels.idxOf first < labels.idxOf second :=
    ordered.sublist (split ▸ List.sublist_append_left done rest)
  refine List.Pairwise.filter _ (List.pairwise_flatMap.mpr ⟨?_, ?_⟩)
  · intro id _
    refine (numbered.pairwise.filter _).imp_of_mem ?_
    intro inner outer one other less
    have start : inner.start = id := of_decide_eq_true (List.mem_filter.mp one).2
    have again : outer.start = id := of_decide_eq_true (List.mem_filter.mp other).2
    exact .inr ⟨start.trans again.symm, less⟩
  · refine List.pairwise_reverse.mpr (passed.imp ?_)
    intro first second less inner one outer other
    have start : inner.start = second := of_decide_eq_true (List.mem_filter.mp one).2
    have again : outer.start = first := of_decide_eq_true (List.mem_filter.mp other).2
    left
    rwa [start, again]

/-! Nested tables -/

structure Nested (labels : List Label) (regions : List Region) : Prop where
  forward : ∀ region ∈ regions, labels.idxOf region.start < labels.idxOf region.finish
  uncrossed : ∀ first ∈ regions, ∀ second ∈ regions,
    ¬(labels.idxOf first.start < labels.idxOf second.start ∧
      labels.idxOf second.start < labels.idxOf first.finish ∧
      labels.idxOf first.finish < labels.idxOf second.finish)
  ranked : ∀ first ∈ regions, ∀ second ∈ regions, first.start = second.start →
    labels.idxOf first.finish < labels.idxOf second.finish → first.seq < second.seq

instance (labels : List Label) (regions : List Region) : Decidable (Nested labels regions) :=
  decidable_of_iff
    ((∀ region ∈ regions, labels.idxOf region.start < labels.idxOf region.finish) ∧
      (∀ first ∈ regions, ∀ second ∈ regions,
        ¬(labels.idxOf first.start < labels.idxOf second.start ∧
          labels.idxOf second.start < labels.idxOf first.finish ∧
          labels.idxOf first.finish < labels.idxOf second.finish)) ∧
      ∀ first ∈ regions, ∀ second ∈ regions, first.start = second.start →
        labels.idxOf first.finish < labels.idxOf second.finish → first.seq < second.seq)
    ⟨fun ⟨forward, uncrossed, ranked⟩ => ⟨forward, uncrossed, ranked⟩,
      fun nested => ⟨nested.forward, nested.uncrossed, nested.ranked⟩⟩

theorem Nested.started (nested : Nested labels regions) (split : labels = done ++ rest) :
    ∀ region ∈ regions, region.finish ∈ done → region.start ∈ done := by
  intro region member ended
  have less := nested.forward region member
  rw [mem_done_iff_lt_length split] at ended ⊢
  omega

theorem Nested.closable (nested : Nested labels regions) (numbered : Numbered regions)
    (distinct : labels.Nodup) (split : labels = done ++ id :: rest) : Closable regions done id := by
  have fresh : id ∉ done := not_mem_of_split distinct split
  constructor
  · intro region member finish
    rw [mem_done_iff split fresh, ← finish]
    exact nested.forward region member
  · refine (pairwise_stillOpen numbered distinct split).imp_of_mem ?_
    intro inner outer one other above finish
    obtain ⟨known, begun, later⟩ := (mem_stillOpen_iff split fresh).mp one
    obtain ⟨present, before, _⟩ := (mem_stillOpen_iff split fresh).mp other
    by_contra different
    have member : id ∈ labels := by simp [split]
    have apart : labels.idxOf id ≠ labels.idxOf inner.finish := fun same =>
      different ((List.idxOf_inj member).mp same).symm
    have longer : labels.idxOf outer.finish < labels.idxOf inner.finish := by
      rw [finish]
      omega
    rcases above with starts | ⟨same, less⟩
    · refine nested.uncrossed outer present inner known ⟨starts, ?_, longer⟩
      rwa [finish]
    · have rank := nested.ranked outer present inner known same.symm longer
      omega

theorem Above.asymm {inner outer : Region} (above : Above labels inner outer) :
    ¬Above labels outer inner := by
  intro below
  rcases above with starts | ⟨same, less⟩
  · rcases below with other | ⟨again, _⟩
    · omega
    · rw [again] at starts
      omega
  · rcases below with other | ⟨_, more⟩
    · rw [same] at other
      omega
    · omega

theorem Closable.finish_eq (closable : Closable regions done id) (numbered : Numbered regions)
    (distinct : labels.Nodup) (split : labels = done ++ id :: rest) {inner outer : Region}
    (one : inner ∈ stillOpen regions done) (other : outer ∈ stillOpen regions done)
    (above : Above labels inner outer) (finish : outer.finish = id) : inner.finish = id := by
  have upward : (stillOpen regions done).Pairwise fun first second =>
      Above labels first second → second.finish = id → first.finish = id := by
    refine closable.topmost.imp ?_
    intro first second topmost _
    exact topmost
  have downward : (stillOpen regions done).Pairwise fun first second =>
      Above labels second first → first.finish = id → second.finish = id := by
    refine (pairwise_stillOpen numbered distinct split).imp ?_
    intro first second upper lower
    exact absurd lower upper.asymm
  exact upward.forall_of_forall_of_flip (fun _ _ self => absurd self self.asymm) downward one other
    above finish

theorem nested_of_closable (numbered : Numbered regions) (distinct : labels.Nodup)
    (defined : ∀ region ∈ regions, region.finish ∈ labels)
    (closable : ∀ done id rest, labels = done ++ id :: rest → Closable regions done id) :
    Nested labels regions := by
  have split (region : Region) (member : region ∈ regions) :
      ∃ done rest, labels = done ++ region.finish :: rest ∧ region.finish ∉ done := by
    obtain ⟨done, rest, split⟩ := List.append_of_mem (defined region member)
    exact ⟨done, rest, split, not_mem_of_split distinct split⟩
  -- At the end of `first`, `second` is still open; so it must not be on top.
  have below {first second : Region} (one : first ∈ regions) (other : second ∈ regions)
      (forward : labels.idxOf first.start < labels.idxOf first.finish)
      (begun : labels.idxOf second.start < labels.idxOf first.finish)
      (longer : labels.idxOf first.finish < labels.idxOf second.finish) :
      ¬Above labels second first := by
    intro above
    obtain ⟨done, rest, split, fresh⟩ := split first one
    have lower : first ∈ stillOpen regions done :=
      (mem_stillOpen_iff split fresh).mpr ⟨one, forward, Nat.le_refl _⟩
    have upper : second ∈ stillOpen regions done :=
      (mem_stillOpen_iff split fresh).mpr ⟨other, begun, by omega⟩
    have same := (closable _ _ _ split).finish_eq numbered distinct split upper lower above rfl
    rw [same] at longer
    omega
  have forward (region : Region) (member : region ∈ regions) :
      labels.idxOf region.start < labels.idxOf region.finish := by
    obtain ⟨done, rest, split, fresh⟩ := split region member
    rw [← mem_done_iff split fresh]
    exact (closable _ _ _ split).begun region member rfl
  refine ⟨forward, ?_, ?_⟩
  · rintro first one second other ⟨starts, begun, longer⟩
    exact below one other (forward first one) begun longer (.inl starts)
  · intro first one second other same longer
    have notAbove := below one other (forward first one) (same ▸ forward first one) longer
    have different : first.seq ≠ second.seq := by
      intro equal
      rw [numbered.seq_injective one other equal] at longer
      omega
    have unranked : ¬second.seq < first.seq := fun less => notAbove (.inr ⟨same.symm, less⟩)
    omega

/-! The running sum -/

def openAt (labels : List Label) (regions : List Region) (target : Label) : Nat :=
  regions.countP fun region => labels.idxOf region.start < labels.idxOf target ∧
    labels.idxOf target ≤ labels.idxOf region.finish

theorem length_stillOpen (numbered : Numbered regions) (distinct : labels.Nodup)
    (split : labels = done ++ id :: rest) (fresh : id ∉ done) :
    (stillOpen regions done).length = openAt labels regions id := by
  have passed : done.Nodup := (split ▸ distinct).of_append_left
  rw [openAt, List.countP_eq_length_filter]
  refine (List.perm_ext_iff_of_nodup (nodup_stillOpen numbered passed)
    (numbered.nodup.filter _)).mpr (fun region => ?_) |>.length_eq
  rw [mem_stillOpen_iff split fresh, List.mem_filter, decide_eq_true_iff]

theorem length_stillOpen_concat (numbered : Numbered regions) (passed : done.Nodup)
    (fresh : id ∉ done) (closable : Closable regions done id)
    (started : ∀ region ∈ regions, region.finish ∈ done → region.start ∈ done) :
    (stillOpen regions (done ++ [id])).length + (regions.filter (·.finish = id)).length =
      (stillOpen regions done).length + (regions.filter (·.start = id)).length := by
  have ending := (closable.perm_ending numbered passed fresh).length_eq
  have parts := (stillOpen regions done).length_eq_length_filter_add (·.finish = id)
  have others : (stillOpen regions done).filter (fun region => !decide (region.finish = id)) =
      (stillOpen regions done).filter (·.finish ≠ id) := by
    congr 1
    funext region
    simp
  rw [others] at parts
  rw [stillOpen_concat closable fresh started, List.length_append]
  omega

theorem Nested.depthFrom {scope : MethodScope} (nested : Nested labels scope.regions)
    (numbered : Numbered scope.regions) (distinct : labels.Nodup) {target : Label}
    (split : labels = done ++ rest) (later : target ∉ done) :
    scope.depthFrom target (stillOpen scope.regions done).length rest =
      if target ∈ rest then .ok (openAt labels scope.regions target)
      else .error (.unsupported (.missingLabel target)) := by
  -- The sum so far is the number of regions that are open after the labels `done`.
  induction rest generalizing done with
  | nil => simp [MethodScope.depthFrom]
  | cons label rest ih =>
      have apart : (done ++ label :: rest).Nodup := split ▸ distinct
      have fresh : label ∉ done := not_mem_of_split distinct split
      simp only [MethodScope.depthFrom]
      by_cases here : label = target
      · subst here
        simp [length_stillOpen numbered distinct split fresh]
      · have closable := nested.closable numbered distinct split
        have sum := length_stillOpen_concat numbered apart.of_append_left fresh closable
          (nested.started split)
        have next : scope.depthFrom target (stillOpen scope.regions (done ++ [label])).length rest = _ :=
          ih (by simpa using split) (by simp [later, Ne.symm here])
        have enough : ¬(stillOpen scope.regions done).length + (scope.beginningAt label).length <
            (scope.endingAt label).length := by
          unfold MethodScope.beginningAt MethodScope.endingAt
          omega
        have depth : (stillOpen scope.regions done).length + (scope.beginningAt label).length -
            (scope.endingAt label).length = (stillOpen scope.regions (done ++ [label])).length := by
          unfold MethodScope.beginningAt MethodScope.endingAt
          omega
        rw [if_neg here, if_neg enough, depth, next]
        simp [Ne.symm here]

theorem Nested.depthFrom_zero {scope : MethodScope} (nested : Nested labels scope.regions)
    (numbered : Numbered scope.regions) (distinct : labels.Nodup) (target : Label) :
    scope.depthFrom target 0 labels =
      if target ∈ labels then .ok (openAt labels scope.regions target)
      else .error (.unsupported (.missingLabel target)) := by
  simpa [stillOpen, begun] using
    nested.depthFrom numbered distinct (List.nil_append labels).symm (List.not_mem_nil (a := target))

end TryTable

theorem Listing.labels_cons (instruction : Instr) (rest : List Instr) :
    (instruction :: rest).filterMap labelOf? =
      (labelOf? instruction).toList ++ rest.filterMap labelOf? := by
  cases found : labelOf? instruction <;> simp [found]

/-! Errors other than those of try regions -/

@[simp] def Error.IsUnbalanced : Error → Prop
  | unbalanced _ => True
  | _ => False

namespace Listing

variable {kind : Error → Prop} (malformed : ∀ cause, kind (.malformed cause))
include malformed

theorem fails_expectType (role : String) (op : Opcode) (value : Value) (expected : StackType) :
    Fails kind (expectType role op value expected) := by
  unfold expectType
  split
  · exact fails_ok _
  · exact (fails_error _).mpr (malformed _)

theorem fails_operandValue (list : Listing) (render : Instr → Except Error Value) (role : String)
    (id : NodeId) : Fails kind (list.operandValue render role id) := by
  unfold operandValue
  split
  · exact (fails_error _).mpr (malformed _)
  · split
    · exact fails_ok _
    · exact (fails_error _).mpr (malformed _)

theorem fails_valueOfNode (list : Listing) {operand : String → NodeId → Except Error Value}
    (operands : ∀ role id, Fails kind (operand role id)) (instruction : Instr) :
    Fails kind (list.valueOfNode operand instruction) := by
  have expects := fails_expectType malformed
  unfold valueOfNode
  split
  · refine (operands _ _).bind fun left => ?_
    split
    · exact (fails_error _).mpr (malformed _)
    · refine (operands _ _).bind fun right => ?_
      exact (expects _ _ _ _).bind fun _ => (expects _ _ _ _).bind fun _ => fails_ok _
  · refine (operands _ _).bind fun value => ?_
    split
    · exact (fails_error _).mpr (malformed _)
    · exact (expects _ _ _ _).bind fun _ => fails_ok _
  · split
    · exact (fails_error _).mpr (malformed _)
    · refine (operands _ _).bind fun array => (operands _ _).bind fun index => ?_
      exact (expects _ _ _ _).bind fun _ => (expects _ _ _ _).bind fun _ => fails_ok _
  · exact (operands _ _).bind fun array => (expects _ _ _ _).bind fun _ => fails_ok _
  · exact operands _ _
  · split
    · exact fails_ok _
    · exact (fails_error _).mpr (malformed _)

theorem fails_render (list : Listing) (instruction : Instr) :
    Fails kind (list.render instruction) :=
  list.fails_valueOfNode malformed (list.fails_operandValue malformed _) instruction

end Listing

namespace Emission

open C Emit TryTable

theorem balanced_jumpTo {labels : List Label} {state : BodyState} (distinct : labels.Nodup)
    (numbered : Numbered state.scope.regions) (nested : Nested labels state.scope.regions)
    (target : Label) :
    Result.Fails (¬·.IsUnbalanced) ((jumpTo labels target).run.run state).1 := by
  rw [run_jumpTo]
  split
  · dsimp only
    rw [fails_map]
    unfold MethodScope.catchDepth
    split
    · exact fails_ok _
    · rw [nested.depthFrom_zero numbered distinct]
      split
      · exact fails_ok _
      next error failed =>
        split at failed
        · cases failed
        · cases failed
          simp
  · exact fails_ok _

theorem balanced_instr {context : MethodContext} {instruction : Instr} {state : BodyState}
    {done rest : List Label} (distinct : context.labels.Nodup)
    (split : context.labels = done ++ (Listing.labelOf? instruction).toList ++ rest)
    (numbered : Numbered state.scope.regions) (nested : Nested context.labels state.scope.regions)
    (before : OpenAfter state.scope.regions done state.openRegions) :
    Result.Fails (¬·.IsUnbalanced) ((instr context instruction).run.run state).1 := by
  cases found : Listing.labelOf? instruction with
  | none =>
      have jumps (target : Label) :
          Ensures (fun middle => middle.scope.regions = state.scope.regions) (fun _ : Jump => True)
            (¬·.IsUnbalanced) (jumpTo context.labels target) := by
        intro middle same
        refine ⟨?_, fun _ _ => trivial, ?_⟩
        · rw [run_jumpTo]
          split
          · exact (MethodScope.regions_catchDepth ..).trans same
          · exact same
        · exact balanced_jumpTo distinct (same ▸ numbered) (same ▸ nested) target
      have rendering : Result.Fails (¬·.IsUnbalanced) (context.list.render instruction) :=
        context.list.fails_render (fun _ => by simp) instruction
      exact (ensures_instr found (fun _ => by simp) (fun _ => rendering)
        (fun _ _ _ _ same => same) jumps state rfl).2.2
  | some id =>
      obtain rfl := Listing.labelOf?_eq_some found
      rw [found, Option.toList_some, List.append_assoc] at split
      have apart : (done ++ id :: rest).Nodup := split ▸ distinct
      have fresh : id ∉ done := not_mem_of_split distinct split
      obtain ⟨items, opened, made⟩ := label_of_closable before numbered apart.of_append_left fresh
        (nested.closable numbered distinct split)
      simp only [instr, run_bind, run_get, made]
      exact fails_ok items

theorem openAfter_instr {context : MethodContext} {instruction : Instr} {state middle : BodyState}
    {items : List Item} (ran : (instr context instruction).run.run state = (.ok items, middle))
    {done : List Label} (numbered : Numbered state.scope.regions)
    (distinct : (done ++ (Listing.labelOf? instruction).toList).Nodup)
    (before : OpenAfter state.scope.regions done state.openRegions) :
    middle.scope.regions = state.scope.regions ∧
      OpenAfter state.scope.regions (done ++ (Listing.labelOf? instruction).toList)
        middle.openRegions ∧
      ∀ id, Listing.labelOf? instruction = some id → Closable state.scope.regions done id := by
  cases found : Listing.labelOf? instruction with
  | none =>
      have same := (leaves_instr found ran).1
      refine ⟨same.regions, ?_, by simp⟩
      simpa [same.opened] using before
  | some id =>
      obtain rfl := Listing.labelOf?_eq_some found
      rw [found] at distinct
      have fresh : id ∉ done := not_mem_of_split distinct rfl
      obtain ⟨opened, made, rfl⟩ := instr_label_eq_ok ran
      obtain ⟨closable, after⟩ :=
        closable_of_label before numbered distinct.of_append_left fresh made
      refine ⟨rfl, after, ?_⟩
      rintro other ⟨rfl⟩
      exact closable

theorem openAfter_instrs {context : MethodContext} {annotate : Bool} {instructions : List Instr}
    {state after : BodyState} {items : List Item}
    (ran : (instrs context annotate instructions).run.run state = (.ok items, after))
    {done : List Label} (numbered : Numbered state.scope.regions)
    (distinct : (done ++ instructions.filterMap Listing.labelOf?).Nodup)
    (before : OpenAfter state.scope.regions done state.openRegions) :
    OpenAfter state.scope.regions (done ++ instructions.filterMap Listing.labelOf?)
        after.openRegions ∧
      ∀ passed id rest, instructions.filterMap Listing.labelOf? = passed ++ id :: rest →
        Closable state.scope.regions (done ++ passed) id := by
  induction instructions generalizing state items done with
  | nil =>
      cases ran
      simpa using before
  | cons instruction rest ih =>
      obtain ⟨first, middle, others, here, later, _⟩ := instrs_cons_eq_ok ran
      rw [Listing.labels_cons, ← List.append_assoc] at distinct
      obtain ⟨regions, opened, closable⟩ :=
        openAfter_instr here numbered distinct.of_append_left before
      rw [← regions] at numbered opened closable ⊢
      obtain ⟨last, others⟩ := ih later numbered distinct opened
      rw [Listing.labels_cons, ← List.append_assoc]
      refine ⟨last, ?_⟩
      intro passed id following split
      cases found : Listing.labelOf? instruction with
      | none =>
          rw [found] at split others
          simpa using others passed id following split
      | some label =>
          rw [found] at split others
          cases passed with
          | nil =>
              obtain rfl : label = id := (List.cons.inj split).1
              simpa using closable label found
          | cons head passed =>
              obtain ⟨rfl, tail⟩ := List.cons.inj split
              simpa using others passed id following tail

theorem balanced_instrs {context : MethodContext} (annotate : Bool) {instructions : List Instr}
    {state : BodyState} {done : List Label} (distinct : context.labels.Nodup)
    (split : context.labels = done ++ instructions.filterMap Listing.labelOf?)
    (numbered : Numbered state.scope.regions) (nested : Nested context.labels state.scope.regions)
    (before : OpenAfter state.scope.regions done state.openRegions) :
    Result.Fails (¬·.IsUnbalanced)
      ((instrs context annotate instructions).run.run state).1 := by
  induction instructions generalizing state done with
  | nil => exact fails_ok _
  | cons instruction rest ih =>
      rw [Listing.labels_cons, ← List.append_assoc] at split
      have apart : (done ++ (Listing.labelOf? instruction).toList).Nodup :=
        (split ▸ distinct).of_append_left
      have one : Result.Fails (¬·.IsUnbalanced) ((instr context instruction).run.run state).1 :=
        balanced_instr distinct split numbered nested before
      simp only [instrs, run_bind]
      split
      next first middle here =>
        obtain ⟨regions, opened, _⟩ := openAfter_instr here numbered apart before
        rw [← regions] at numbered nested opened
        have others := ih split numbered nested opened
        split
        next => exact fails_ok _
        next error last failed => simpa [failed] using others
      next error middle failed => simpa [failed] using one

theorem stillOpen_eq_nil {regions : List Region} {labels : List Label}
    (defined : ∀ region ∈ regions, region.finish ∈ labels) : stillOpen regions labels = [] := by
  refine List.filter_eq_nil_iff.mpr fun region member => ?_
  simp [defined region (mem_begun.mp member).1]

theorem balanced_body {context : MethodContext} (annotate : Bool) {state : BodyState}
    (code : context.labels = context.list.labels) (distinct : context.labels.Nodup)
    (numbered : Numbered state.scope.regions) (nested : Nested context.labels state.scope.regions)
    (defined : ∀ region ∈ state.scope.regions, region.finish ∈ context.labels)
    (closed : state.openRegions = []) :
    Result.Fails (¬·.IsUnbalanced) ((body context annotate).run.run state).1 := by
  have before : OpenAfter state.scope.regions [] state.openRegions := closed ▸ .empty _
  have split : context.labels = [] ++ context.list.instrs.filterMap Listing.labelOf? := code
  have fails := balanced_instrs annotate distinct split numbered nested before
  simp only [body, run_bind, run_get]
  split
  next items after ran =>
    have last := (openAfter_instrs ran numbered (split ▸ distinct) before).1
    rw [← split] at last
    have none : after.openRegions = [] := by
      rw [last.stack, stillOpen_eq_nil defined, List.map_nil]
    rw [none]
    exact fails_ok items
  next error after failed => simpa [failed] using fails

theorem nested_of_body {context : MethodContext} {annotate : Bool} {state after : BodyState}
    {items : List Item} (ran : (body context annotate).run.run state = (.ok items, after))
    (code : context.labels = context.list.labels) (distinct : context.labels.Nodup)
    (numbered : Numbered state.scope.regions)
    (defined : ∀ region ∈ state.scope.regions, region.finish ∈ context.labels)
    (closed : state.openRegions = []) : Nested context.labels state.scope.regions := by
  have before : OpenAfter state.scope.regions [] state.openRegions := closed ▸ .empty _
  have split : context.labels = [] ++ context.list.instrs.filterMap Listing.labelOf? := code
  obtain ⟨emitted, _⟩ := body_eq_ok ran
  obtain ⟨_, closable⟩ := openAfter_instrs emitted numbered (split ▸ distinct) before
  refine nested_of_closable numbered distinct defined fun done id rest parts => ?_
  exact closable done id rest (split.symm.trans parts)

end Emission

/-- Exactly the nested exception tables are accepted: with a nested table the lowering of a body never
complains about its try regions, and with any other it does not succeed. -/
theorem try_tables_accepted_when_nested (header : MethodHeader) (list : Listing)
    (locals : List LocalVar) (index : ClassIndex) (annotate : Bool) (unit : UnitState)
    (distinct : list.labels.Nodup) (numbered : TryTable.Numbered unit.scope.regions)
    (defined : ∀ region ∈ unit.scope.regions, region.finish ∈ list.labels) :
    (TryTable.Nested list.labels unit.scope.regions → ∀ cause,
      (header.lowerBody list locals index annotate unit).1 ≠ .error (.unbalanced cause)) ∧
    (¬TryTable.Nested list.labels unit.scope.regions → ∀ lowered,
      (header.lowerBody list locals index annotate unit).1 ≠ .ok lowered) := by
  constructor
  · intro nested cause failed
    let context := header.context list locals index
    let start : BodyState := { scope := unit.scope }
    have emits : Result.Fails (¬·.IsUnbalanced) ((Emission.body context annotate).run.run start).1 :=
      Emission.balanced_body annotate rfl distinct numbered nested defined rfl
    have fails : Result.Fails (¬·.IsUnbalanced) (header.lowerBody list locals index annotate unit).1 :=
      (fails_map _ _).mpr emits
    exact fails _ failed trivial
  · intro unnested ⟨items, calls⟩ lowered
    have whole : header.lowerBody list locals index annotate unit = (.ok (items, calls), _) :=
      Prod.ext lowered rfl
    obtain ⟨state, ran, _⟩ := MethodHeader.lowerBody_eq_ok whole
    exact unnested (Emission.nested_of_body ran rfl distinct numbered defined rfl)

def Sample.crossing : MethodDecl :=
  { Sample.guarded with tryCatch := [⟨1, 3, 9, none⟩, ⟨2, 4, 9, none⟩] }

theorem try_tables_accepted_when_nested_sample :
    (∃ list unit, Sample.guarded.assemble .empty = (.ok list, unit) ∧
      list.labels.Nodup ∧ TryTable.Numbered unit.scope.regions ∧
      (∀ region ∈ unit.scope.regions, region.finish ∈ list.labels) ∧
      TryTable.Nested list.labels unit.scope.regions ∧ ∀ cause,
        ((Sample.guarded.header "t/Main").lowerBody list [] .empty false unit).1 ≠
          .error (.unbalanced cause)) ∧
    ∃ list unit, Sample.crossing.assemble .empty = (.ok list, unit) ∧
      ¬TryTable.Nested list.labels unit.scope.regions ∧ ∀ lowered,
        ((Sample.crossing.header "t/Main").lowerBody list [] .empty false unit).1 ≠ .ok lowered := by
  have assembles (method : MethodDecl)
      (made : (method.assemble .empty).1.map Listing.labels = .ok [1, 2, 3, 4, 9])
      (ends : ∀ region ∈ method.regions, region.finish ∈ [1, 2, 3, 4, 9]) :
      ∃ list unit, method.assemble .empty = (.ok list, unit) ∧
        (list.labels = [1, 2, 3, 4, 9] ∧ unit.scope.regions = method.regions) ∧
        list.labels.Nodup ∧ TryTable.Numbered unit.scope.regions ∧
        ∀ region ∈ unit.scope.regions, region.finish ∈ list.labels := by
    obtain ⟨list, made, labels⟩ := (map_eq_ok_iff ..).mp made
    have whole : method.assemble UnitState.empty.beginMethod =
        (.ok list, (method.assemble .empty).2) := Prod.ext made rfl
    have regions := MethodDecl.regions_assemble whole
    refine ⟨list, _, whole, ⟨labels, regions⟩, ?_⟩
    rw [labels, regions]
    exact ⟨by decide, method.numbered_regions, ends⟩
  constructor
  · obtain ⟨list, unit, whole, ⟨labels, regions⟩, distinct, numbered, defined⟩ :=
      assembles Sample.guarded (by decide +kernel) (by decide)
    have nested : TryTable.Nested list.labels unit.scope.regions := by
      rw [labels, regions]
      decide
    refine ⟨list, unit, whole, distinct, numbered, defined, nested, ?_⟩
    exact (try_tables_accepted_when_nested _ _ _ _ _ _ distinct numbered defined).1 nested
  · obtain ⟨list, unit, whole, ⟨labels, regions⟩, distinct, numbered, defined⟩ :=
      assembles Sample.crossing (by decide +kernel) (by decide)
    have crossing : ¬TryTable.Nested list.labels unit.scope.regions := by
      rw [labels, regions]
      decide
    refine ⟨list, unit, whole, crossing, ?_⟩
    exact (try_tables_accepted_when_nested _ _ _ _ _ _ distinct numbered defined).2 crossing

end BytecodeToC
