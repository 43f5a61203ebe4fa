import BytecodeToC.Proofs.TryScopes

/-!
The stack of open try regions. As long as the labels of a body are lowered without complaint, the
open regions are those that have begun and not ended, the ones begun last on top and, among those
begun at one label, the first registered on top. A label can be lowered if and only if the regions
that end at it are the topmost ones.
-/

namespace BytecodeToC

open Result

namespace TryTable

/-! Regions that have begun and not ended -/

theorem eq_filter_append_filter {α : Type} {keep : α → Bool} {values : List α}
    (first : values.Pairwise fun earlier later => keep later = true → keep earlier = true) :
    values = values.filter keep ++ values.filter fun value => !keep value := by
  induction values with
  | nil => rfl
  | cons value rest ih =>
      obtain ⟨here, later⟩ := List.pairwise_cons.mp first
      cases kept : keep value with
      | true => simpa [kept] using ih later
      | false =>
          have none : rest.filter keep = [] := by
            refine List.filter_eq_nil_iff.mpr fun other member keeps => ?_
            simp [here other member keeps] at kept
          have all : rest.filter (fun value => !keep value) = rest := by
            refine List.filter_eq_self.mpr fun other member => ?_
            simpa using List.filter_eq_nil_iff.mp none other member
          simp [kept, none, all]

/-- The regions that begin at labels already passed, those of the last label first. -/
def begun (regions : List Region) (done : List Label) : List Region :=
  done.reverse.flatMap fun id => regions.filter (·.start = id)

def stillOpen (regions : List Region) (done : List Label) : List Region :=
  (begun regions done).filter (·.finish ∉ done)

variable {regions : List Region} {done : List Label}

theorem mem_begun {region : Region} :
    region ∈ begun regions done ↔ region ∈ regions ∧ region.start ∈ done := by
  simp [begun, and_comm]

theorem mem_stillOpen {region : Region} :
    region ∈ stillOpen regions done ↔
      region ∈ regions ∧ region.start ∈ done ∧ region.finish ∉ done := by
  simp [stillOpen, mem_begun, and_assoc]

theorem begun_concat (regions : List Region) (done : List Label) (id : Label) :
    begun regions (done ++ [id]) = regions.filter (·.start = id) ++ begun regions done := by
  simp [begun]

theorem nodup_begun (numbered : Numbered regions) (distinct : done.Nodup) :
    (begun regions done).Nodup := by
  refine List.nodup_flatMap.mpr ⟨fun id _ => numbered.nodup.filter _, ?_⟩
  refine (List.nodup_reverse.mpr distinct).imp ?_
  intro first second different region one other
  have starts : region.start = first := of_decide_eq_true (List.mem_filter.mp one).2
  have again : region.start = second := of_decide_eq_true (List.mem_filter.mp other).2
  exact different (starts.symm.trans again)

theorem nodup_stillOpen (numbered : Numbered regions) (distinct : done.Nodup) :
    (stillOpen regions done).Nodup :=
  (nodup_begun numbered distinct).filter _

/-- `opened` is the stack of open regions after the labels `done`. -/
structure OpenAfter (regions : List Region) (done : List Label) (opened : List Nat) : Prop where
  stack : opened = (stillOpen regions done).map (·.seq)
  forward : ∀ region ∈ regions, region.finish ∈ done → region.start ∈ done

theorem OpenAfter.empty (regions : List Region) : OpenAfter regions [] [] :=
  ⟨by simp [stillOpen, begun], by simp⟩

/-- The regions that end at a label have begun before it, and no other open region is on top of one
of them. -/
structure Closable (regions : List Region) (done : List Label) (id : Label) : Prop where
  begun : ∀ region ∈ regions, region.finish = id → region.start ∈ done
  topmost : (stillOpen regions done).Pairwise fun inner outer =>
    outer.finish = id → inner.finish = id

variable {id : Label} {opened after : List Nat}

theorem Closable.mem_stillOpen (closable : Closable regions done id) (fresh : id ∉ done)
    {region : Region} (member : region ∈ regions.filter (·.finish = id)) :
    region ∈ stillOpen regions done := by
  obtain ⟨known, ends⟩ := List.mem_filter.mp member
  have finish : region.finish = id := of_decide_eq_true ends
  refine TryTable.mem_stillOpen.mpr ⟨known, closable.begun region known finish, ?_⟩
  rwa [finish]

theorem Closable.perm_ending (closable : Closable regions done id) (numbered : Numbered regions)
    (distinct : done.Nodup) (fresh : id ∉ done) :
    ((stillOpen regions done).filter (·.finish = id)).Perm (regions.filter (·.finish = id)) := by
  refine (List.perm_ext_iff_of_nodup ?_ (numbered.nodup.filter _)).mpr fun region => ?_
  · exact (nodup_stillOpen numbered distinct).filter _
  · constructor
    · intro member
      obtain ⟨here, ends⟩ := List.mem_filter.mp member
      exact List.mem_filter.mpr ⟨(TryTable.mem_stillOpen.mp here).1, ends⟩
    · intro member
      have here := closable.mem_stillOpen fresh member
      exact List.mem_filter.mpr ⟨here, (List.mem_filter.mp member).2⟩

theorem stillOpen_concat (closable : Closable regions done id) (fresh : id ∉ done)
    (forward : ∀ region ∈ regions, region.finish ∈ done → region.start ∈ done) :
    stillOpen regions (done ++ [id]) =
      regions.filter (·.start = id) ++ (stillOpen regions done).filter (·.finish ≠ id) := by
  have new : (regions.filter (·.start = id)).filter (·.finish ∉ done ++ [id]) =
      regions.filter (·.start = id) := by
    refine List.filter_eq_self.mpr fun region member => ?_
    obtain ⟨known, starts⟩ := List.mem_filter.mp member
    have start : region.start = id := of_decide_eq_true starts
    have notEnded : region.finish ∉ done := fun ended => fresh (start ▸ forward region known ended)
    have notEnding : region.finish ≠ id := fun ends =>
      fresh (start ▸ closable.begun region known ends)
    simp [notEnded, notEnding]
  have old : (begun regions done).filter (·.finish ∉ done ++ [id]) =
      (stillOpen regions done).filter (·.finish ≠ id) := by
    rw [stillOpen, List.filter_filter]
    congr 1
    funext region
    simp [and_comm]
  rw [stillOpen, begun_concat, List.filter_append, new, old]

theorem OpenAfter.concat (before : OpenAfter regions done opened)
    (closable : Closable regions done id) (fresh : id ∉ done) :
    OpenAfter regions (done ++ [id])
      ((regions.filter (·.start = id)).map (·.seq) ++
        ((stillOpen regions done).filter (·.finish ≠ id)).map (·.seq)) where
  stack := by rw [stillOpen_concat closable fresh before.forward, List.map_append]
  forward := by
    intro region member ended
    rcases List.mem_append.mp ended with old | new
    · exact List.mem_append_left _ (before.forward region member old)
    · exact List.mem_append_left _ (closable.begun region member (List.mem_singleton.mp new))

end TryTable

namespace Emission

open C TryTable

theorem closeRegions_append (label : Label) {ending closed : List Nat} (stillOpen : List Nat)
    (allowed : closed ⊆ ending) :
    closeRegions label ending closed.length (closed ++ stillOpen) =
      .ok (closed.map fun seq => .stmt (.endTry seq), stillOpen) := by
  induction closed with
  | nil => rfl
  | cons seq rest ih =>
      obtain ⟨here, others⟩ := List.cons_subset.mp allowed
      simp [closeRegions, here, ih others, Except.map]

variable {scope : MethodScope} {done : List Label} {opened : List Nat} {id : Label}

theorem label_of_closable (before : OpenAfter scope.regions done opened)
    (numbered : Numbered scope.regions) (distinct : done.Nodup) (fresh : id ∉ done)
    (closable : Closable scope.regions done id) :
    ∃ items after, label scope opened id = .ok (items, after) := by
  let stack := stillOpen scope.regions done
  let closed := stack.filter (·.finish = id)
  have parts : stack = closed ++ stack.filter (fun region => !decide (region.finish = id)) :=
    eq_filter_append_filter (closable.topmost.imp fun topmost ends => by
      simpa using topmost (by simpa using ends))
  have all : closed.Perm (scope.endingAt id) := closable.perm_ending numbered distinct fresh
  have count : ((scope.endingAt id).map (·.seq)).length = (closed.map (·.seq)).length := by
    simpa using all.length_eq.symm
  have allowed : closed.map (·.seq) ⊆ (scope.endingAt id).map (·.seq) := by
    intro seq member
    obtain ⟨region, here, rfl⟩ := List.mem_map.mp member
    exact List.mem_map_of_mem (all.subset here)
  have closing := closeRegions_append id
    ((stack.filter (fun region => !decide (region.finish = id))).map (·.seq)) allowed
  rw [← List.map_append, ← parts, ← before.stack, ← count] at closing
  simp only [label, closing]
  exact ⟨_, _, rfl⟩

theorem closable_of_label {items : List Item} {after : List Nat}
    (before : OpenAfter scope.regions done opened) (numbered : Numbered scope.regions)
    (distinct : done.Nodup) (fresh : id ∉ done)
    (success : label scope opened id = .ok (items, after)) :
    Closable scope.regions done id ∧ OpenAfter scope.regions (done ++ [id]) after := by
  obtain ⟨closedSeqs, restSeqs, parts, count, allowed, _, rfl⟩ := label_eq_ok success
  rw [before.stack] at parts
  obtain ⟨closed, rest, split, rfl, rfl⟩ := List.map_eq_append_iff.mp parts
  have unique : (closed ++ rest).Nodup := split ▸ nodup_stillOpen numbered distinct
  have known {region : Region} (member : region ∈ closed ++ rest) :
      region ∈ scope.regions ∧ region.start ∈ done ∧ region.finish ∉ done := by
    rw [← split] at member
    exact mem_stillOpen.mp member
  have ending : closed ⊆ scope.endingAt id := by
    intro region member
    obtain ⟨other, ends, same⟩ := List.mem_map.mp (allowed (List.mem_map_of_mem member))
    have here := (known (List.mem_append_left rest member)).1
    rwa [← numbered.seq_injective (List.mem_filter.mp ends).1 here same]
  -- As many regions are closed as end at the label, so all of these are closed.
  have all : closed.Perm (scope.endingAt id) := by
    refine (List.subperm_of_subset unique.of_append_left ending).perm_of_length_le ?_
    have same : closed.length = (scope.endingAt id).length := by simpa using count
    omega
  have ends {region : Region} (member : region ∈ closed ++ rest) :
      region.finish = id ↔ region ∈ closed := by
    have here := (known member).1
    constructor
    · intro finish
      exact all.symm.subset (List.mem_filter.mpr ⟨here, by simp [finish]⟩)
    · intro closes
      exact of_decide_eq_true (List.mem_filter.mp (ending closes)).2
  have apart : ∀ region ∈ rest, region.finish ≠ id := by
    intro region member finish
    have closes := (ends (List.mem_append_right closed member)).mp finish
    exact List.disjoint_of_nodup_append unique closes member
  have closable : Closable scope.regions done id := by
    constructor
    · intro region member finish
      have closes := all.symm.subset (List.mem_filter.mpr ⟨member, by simp [finish]⟩)
      exact (known (List.mem_append_left rest closes)).2.1
    · rw [split]
      refine List.pairwise_append.mpr ⟨?_, ?_, ?_⟩
      · exact List.pairwise_of_forall_mem_list fun inner here outer _ _ =>
          (ends (List.mem_append_left rest here)).mpr here
      · exact List.pairwise_of_forall_mem_list fun inner _ outer there finish =>
          absurd finish (apart outer there)
      · intro inner _ outer there finish
        exact absurd finish (apart outer there)
  have left : (stillOpen scope.regions done).filter (·.finish ≠ id) = rest := by
    have none : closed.filter (·.finish ≠ id) = [] := by
      refine List.filter_eq_nil_iff.mpr fun region member => ?_
      simp [(ends (List.mem_append_left rest member)).mpr member]
    have kept : rest.filter (·.finish ≠ id) = rest := by
      refine List.filter_eq_self.mpr fun region member => ?_
      simp [apart region member]
    rw [split, List.filter_append, none, kept, List.nil_append]
  refine ⟨closable, ?_⟩
  have next := before.concat closable fresh
  rwa [left] at next

end Emission

end BytecodeToC
