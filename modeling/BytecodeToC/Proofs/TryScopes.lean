import BytecodeToC.Proofs.Absorption
import BytecodeToC.Proofs.Assembled
import BytecodeToC.Proofs.ControlLines
import BytecodeToC.Proofs.MethodLowering
import Mathlib.Data.List.Count
import Mathlib.Data.List.Nodup
import Mathlib.Data.List.Perm.Subperm

/-!
The try scopes of an emitted body are a well bracketed word in which every region of the exception
table is opened once, at its start, and closed once, at its end.

A label closes as many regions as end there and checks only that each of them is one that ends there.
That this closes all of them is a matter of counting: the open regions are distinct.
-/

namespace BytecodeToC

open Result

namespace Emission

open C

/-! Labels -/

theorem closeRegions_eq_ok {label : Label} {ending : List Nat} {count : Nat}
    {opened stillOpen : List Nat} {items : List Item}
    (success : closeRegions label ending count opened = .ok (items, stillOpen)) :
    ∃ closed, opened = closed ++ stillOpen ∧ closed.length = count ∧ closed ⊆ ending ∧
      items = closed.map fun seq => .stmt (.endTry seq) := by
  induction count generalizing opened items with
  | zero =>
      simp only [closeRegions, Except.ok.injEq, Prod.mk.injEq] at success
      obtain ⟨rfl, rfl⟩ := success
      exact ⟨[], by simp⟩
  | succ count ih =>
      cases opened with
      | nil => simp [closeRegions] at success
      | cons innermost outer =>
          simp only [closeRegions] at success
          split at success
          next known =>
            obtain ⟨⟨rest, last⟩, made, same⟩ := (map_eq_ok_iff ..).mp success
            cases same
            obtain ⟨closed, rfl, rfl, allowed, rfl⟩ := ih made
            refine ⟨innermost :: closed, rfl, rfl, ?_, rfl⟩
            exact List.cons_subset.mpr ⟨List.contains_iff_mem.mp known, allowed⟩
          next => simp at success

theorem label_eq_ok {scope : MethodScope} {opened after : List Nat} {id : Label}
    {items : List Item} (success : label scope opened id = .ok (items, after)) :
    ∃ closed stillOpen, opened = closed ++ stillOpen ∧
      closed.length = (scope.endingAt id).length ∧
      closed ⊆ (scope.endingAt id).map (·.seq) ∧
      items = (if scope.isReferenced id then [Item.anchor id] else []) ++
        closed.map (fun seq => .stmt (.endTry seq)) ++
        (scope.beginningAt id).reverse.flatMap openRegion ∧
      after = (scope.beginningAt id).map (·.seq) ++ stillOpen := by
  obtain ⟨⟨closes, stillOpen⟩, closing, made⟩ := (bind_eq_ok_iff ..).mp success
  obtain ⟨closed, parts, count, allowed, rfl⟩ := closeRegions_eq_ok closing
  cases made
  exact ⟨closed, stillOpen, parts, by simpa using count, allowed, rfl, by simp⟩

def labelMarks (scope : MethodScope) (closed : List Nat) (id : Label) : List Mark :=
  closed.map .closes ++ ((scope.beginningAt id).map (·.seq)).reverse.map .opens

theorem marksFrom_closes (place : Option Label) (closed : List Nat) (rest : List Item) :
    marksFrom place (closed.map (fun seq => .stmt (.endTry seq)) ++ rest) =
      (closed.map Mark.closes).map (place, ·) ++ marksFrom place rest := by
  induction closed with
  | nil => rfl
  | cons seq others ih => simpa [marksFrom, Item.marks, Stmt.mark?] using ih

theorem marksFrom_opens (place : Option Label) (regions : List Region) (rest : List Item) :
    marksFrom place (regions.flatMap openRegion ++ rest) =
      (regions.map fun region => Mark.opens region.seq).map (place, ·) ++ marksFrom place rest := by
  induction regions with
  | nil => rfl
  | cons region others ih =>
      simpa [openRegion, marksFrom, Item.marks, Stmt.mark?] using ih

theorem marksFrom_label (scope : MethodScope) (closed : List Nat) (id : Label)
    (place : Option Label) (rest : List Item) :
    marksFrom place (closed.map (fun seq => .stmt (.endTry seq)) ++
        (scope.beginningAt id).reverse.flatMap openRegion ++ rest) =
      (labelMarks scope closed id).map (place, ·) ++ marksFrom place rest := by
  rw [List.append_assoc, marksFrom_closes, marksFrom_opens]
  simp [labelMarks, Function.comp_def]

theorem balance?_closes (closed stillOpen : List Nat) :
    balance? (closed ++ stillOpen) (closed.map .closes) = some stillOpen := by
  induction closed with
  | nil => rfl
  | cons seq rest ih => simpa [balance?] using ih

theorem balance?_opens (opened added : List Nat) :
    balance? opened (added.map .opens) = some (added.reverse ++ opened) := by
  induction added generalizing opened with
  | nil => rfl
  | cons seq rest ih => simp [balance?, ih]

theorem balance?_labelMarks (scope : MethodScope) (closed stillOpen : List Nat) (id : Label) :
    balance? (closed ++ stillOpen) (labelMarks scope closed id) =
      some ((scope.beginningAt id).map (·.seq) ++ stillOpen) := by
  rw [labelMarks, balance?_append, balance?_closes, Option.bind_some, balance?_opens,
    List.reverse_reverse]

theorem count_opens_labelMarks (scope : MethodScope) (closed : List Nat) (id : Label)
    (seq : Nat) : (labelMarks scope closed id).count (.opens seq) =
      ((scope.beginningAt id).map (·.seq)).count seq := by
  have others : (closed.map Mark.closes).count (.opens seq) = 0 := by
    simp [List.count_eq_zero]
  rw [labelMarks, List.count_append, others, Nat.zero_add,
    List.count_map_of_injective _ _ fun _ _ same => Mark.opens.inj same, List.count_reverse]

theorem count_closes_labelMarks (scope : MethodScope) (closed : List Nat) (id : Label)
    (seq : Nat) : (labelMarks scope closed id).count (.closes seq) = closed.count seq := by
  have others (added : List Nat) : (added.map Mark.opens).count (.closes seq) = 0 := by
    simp [List.count_eq_zero]
  rw [labelMarks, List.count_append, others, Nat.add_zero,
    List.count_map_of_injective _ _ fun _ _ same => Mark.closes.inj same]

theorem pairwise_labelMarks (scope : MethodScope) (closed : List Nat) (id : Label) :
    (labelMarks scope closed id).Pairwise fun earlier later =>
      earlier.isOpening = true → later.isOpening = true := by
  refine List.pairwise_append.mpr ⟨?_, ?_, ?_⟩
  · exact List.pairwise_map.mpr (List.pairwise_of_forall fun _ _ opening => by cases opening)
  · exact List.pairwise_map.mpr (List.pairwise_of_forall fun _ _ _ => rfl)
  · intro earlier closing later _ opening
    obtain ⟨seq, _, rfl⟩ := List.mem_map.mp closing
    cases opening

end Emission

structure Bracketed (regions : List Region) (done : List Label)
    (placed : List (Option Label × C.Mark)) (opened : List Nat) : Prop where
  balanced : C.balance? [] (placed.map Prod.snd) = some opened
  distinct : opened.Nodup
  known : ∀ seq ∈ opened, ∃ region ∈ regions, region.seq = seq
  mem_opened : ∀ region ∈ regions,
    (region.seq ∈ opened ↔ region.start ∈ done ∧ region.finish ∉ done)
  opens : ∀ region ∈ regions, (placed.map Prod.snd).count (.opens region.seq) =
    if region.start ∈ done then 1 else 0
  closes : ∀ region ∈ regions, (placed.map Prod.snd).count (.closes region.seq) =
    if region.finish ∈ done then 1 else 0
  marks : ∀ entry ∈ placed, ∃ region ∈ regions,
    entry = (some region.start, .opens region.seq) ∨
      entry = (some region.finish, .closes region.seq)
  places : ∀ entry ∈ placed, ∃ id ∈ done, entry.1 = some id
  ordered : ∀ region ∈ regions, region.finish ∈ done →
    [(some region.start, .opens region.seq), (some region.finish, .closes region.seq)].Sublist placed
  closesFirst : placed.Pairwise fun earlier later =>
    earlier.1 = later.1 → earlier.2.isOpening = true → later.2.isOpening = true

namespace Bracketed

theorem map_snd_append (placed : List (Option Label × C.Mark)) (marks : List C.Mark)
    (place : Option Label) :
    (placed ++ marks.map (place, ·)).map Prod.snd = placed.map Prod.snd ++ marks := by
  simp [Function.comp_def]

theorem empty (regions : List Region) : Bracketed regions [] [] [] := by
  constructor <;> simp [C.balance?]

variable {scope : MethodScope} {done : List Label} {placed : List (Option Label × C.Mark)}
  {opened closed stillOpen : List Nat} {id : Label}

theorem mem_map_filter_iff {regions : List Region} (numbered : (regions.map (·.seq)).Nodup)
    (keep : Region → Bool) {region : Region} (member : region ∈ regions) :
    region.seq ∈ (regions.filter keep).map (·.seq) ↔ keep region = true := by
  constructor
  · intro kept
    obtain ⟨other, here, same⟩ := List.mem_map.mp kept
    obtain ⟨present, holds⟩ := List.mem_filter.mp here
    obtain rfl := List.inj_on_of_nodup_map numbered present member same
    exact holds
  · intro holds
    exact List.mem_map.mpr ⟨region, List.mem_filter.mpr ⟨member, holds⟩, rfl⟩

theorem mem_beginning_iff (numbered : (scope.regions.map (·.seq)).Nodup) {region : Region}
    (member : region ∈ scope.regions) :
    region.seq ∈ (scope.beginningAt id).map (·.seq) ↔ region.start = id :=
  (mem_map_filter_iff numbered _ member).trans decide_eq_true_iff

theorem mem_closed_iff (numbered : (scope.regions.map (·.seq)).Nodup) (distinct : closed.Nodup)
    (count : closed.length = (scope.endingAt id).length)
    (allowed : closed ⊆ (scope.endingAt id).map (·.seq)) {region : Region}
    (member : region ∈ scope.regions) : region.seq ∈ closed ↔ region.finish = id := by
  have all : closed.Perm ((scope.endingAt id).map (·.seq)) := by
    refine (List.subperm_of_subset distinct allowed).perm_of_length_le ?_
    simp [count]
  rw [all.mem_iff]
  exact (mem_map_filter_iff numbered _ member).trans decide_eq_true_iff

theorem region_of_mem_labelMarks (allowed : closed ⊆ (scope.endingAt id).map (·.seq))
    {mark : C.Mark} (member : mark ∈ Emission.labelMarks scope closed id) :
    ∃ region ∈ scope.regions,
      region.start = id ∧ mark = .opens region.seq ∨
        region.finish = id ∧ mark = .closes region.seq := by
  rcases List.mem_append.mp member with closing | opening
  · obtain ⟨seq, closes, rfl⟩ := List.mem_map.mp closing
    obtain ⟨region, ends, rfl⟩ := List.mem_map.mp (allowed closes)
    obtain ⟨present, finish⟩ := List.mem_filter.mp ends
    exact ⟨region, present, .inr ⟨of_decide_eq_true finish, rfl⟩⟩
  · obtain ⟨seq, opens, rfl⟩ := List.mem_map.mp opening
    obtain ⟨region, begins, rfl⟩ := List.mem_map.mp (List.mem_reverse.mp opens)
    obtain ⟨present, start⟩ := List.mem_filter.mp begins
    exact ⟨region, present, .inl ⟨of_decide_eq_true start, rfl⟩⟩

variable (bracketed : Bracketed scope.regions done placed (closed ++ stillOpen))
  (numbered : (scope.regions.map (·.seq)).Nodup) (fresh : id ∉ done)
  (count : closed.length = (scope.endingAt id).length)
  (allowed : closed ⊆ (scope.endingAt id).map (·.seq))
include bracketed

theorem started_of_ended {region : Region} (member : region ∈ scope.regions)
    (ended : region.finish ∈ done) : region.start ∈ done := by
  have pair := bracketed.ordered region member ended
  have present : (some region.start, C.Mark.opens region.seq) ∈ placed := pair.subset (by simp)
  obtain ⟨place, passed, same⟩ := bracketed.places _ present
  rwa [Option.some.inj same]

include numbered

theorem distinct_after (fresh : id ∉ done) :
    ((scope.beginningAt id).map (·.seq) ++ stillOpen).Nodup := by
  have beginning : ((scope.beginningAt id).map (·.seq)).Nodup :=
    numbered.sublist (List.filter_sublist.map _)
  refine List.nodup_append'.mpr ⟨beginning, bracketed.distinct.of_append_right, ?_⟩
  intro seq begins still
  obtain ⟨region, member, rfl⟩ := bracketed.known seq (by simp [still])
  have starts := (mem_beginning_iff numbered member).mp begins
  have opened := (bracketed.mem_opened region member).mp (by simp [still])
  exact fresh (starts ▸ opened.1)

theorem opening_mem {region : Region} (member : region ∈ scope.regions)
    (started : region.start ∈ done) : (some region.start, .opens region.seq) ∈ placed := by
  have once := bracketed.opens region member
  rw [if_pos started] at once
  have present : C.Mark.opens region.seq ∈ placed.map Prod.snd :=
    List.count_pos_iff.mp (by omega)
  obtain ⟨entry, here, mark⟩ := List.mem_map.mp present
  obtain ⟨other, known, rfl | rfl⟩ := bracketed.marks entry here
  · obtain rfl := List.inj_on_of_nodup_map numbered known member (C.Mark.opens.inj mark)
    exact here
  · cases mark

include count allowed

theorem closed_iff {region : Region} (member : region ∈ scope.regions) :
    region.seq ∈ closed ↔ region.finish = id :=
  mem_closed_iff numbered bracketed.distinct.of_append_left count allowed member

theorem started_of_finish {region : Region} (member : region ∈ scope.regions)
    (finish : region.finish = id) : region.start ∈ done := by
  have closes := (closed_iff bracketed numbered count allowed member).mpr finish
  exact ((bracketed.mem_opened region member).mp (by simp [closes])).1

include fresh

theorem mem_after_iff {region : Region} (member : region ∈ scope.regions) :
    region.seq ∈ (scope.beginningAt id).map (·.seq) ++ stillOpen ↔
      region.start ∈ done ++ [id] ∧ region.finish ∉ done ++ [id] := by
  have closes := closed_iff bracketed numbered count allowed member
  have opened := bracketed.mem_opened region member
  have apart : region.seq ∈ closed → region.seq ∉ stillOpen :=
    fun here there => List.disjoint_of_nodup_append bracketed.distinct here there
  rw [List.mem_append, mem_beginning_iff numbered member]
  simp only [List.mem_append, List.mem_singleton] at opened ⊢
  constructor
  · rintro (starts | still)
    · have notEnds : region.finish ≠ id := fun finish =>
        fresh (starts ▸ started_of_finish bracketed numbered count allowed member finish)
      have notEnded : region.finish ∉ done := fun ended =>
        fresh (starts ▸ started_of_ended bracketed member ended)
      exact ⟨.inr starts, by simp [notEnds, notEnded]⟩
    · have notEnds : region.finish ≠ id := fun finish => apart (closes.mpr finish) still
      obtain ⟨started, notEnded⟩ := opened.mp (.inr still)
      exact ⟨.inl started, by simp [notEnds, notEnded]⟩
  · rintro ⟨started | starts, notEnded⟩
    · rw [not_or] at notEnded
      rcases opened.mpr ⟨started, notEnded.1⟩ with here | still
      · exact absurd (closes.mp here) notEnded.2
      · exact .inr still
    · exact .inl starts

theorem step :
    Bracketed scope.regions (done ++ [id])
      (placed ++ (Emission.labelMarks scope closed id).map (some id, ·))
      ((scope.beginningAt id).map (·.seq) ++ stillOpen) where
  balanced := by
    rw [map_snd_append, C.balance?_append, bracketed.balanced, Option.bind_some,
      Emission.balance?_labelMarks]
  distinct := distinct_after bracketed numbered fresh
  known := by
    intro seq member
    rcases List.mem_append.mp member with begins | still
    · obtain ⟨region, here, same⟩ := List.mem_map.mp begins
      exact ⟨region, (List.mem_filter.mp here).1, same⟩
    · exact bracketed.known seq (by simp [still])
  mem_opened := fun _ member => mem_after_iff bracketed numbered fresh count allowed member
  opens := by
    intro region member
    have once : ((scope.beginningAt id).map (·.seq)).Nodup :=
      numbered.sublist (List.filter_sublist.map _)
    rw [map_snd_append, List.count_append, bracketed.opens region member,
      Emission.count_opens_labelMarks, once.count]
    simp only [mem_beginning_iff numbered member, List.mem_append, List.mem_singleton]
    by_cases starts : region.start = id
    · simp [starts, fresh]
    · simp [starts]
  closes := by
    intro region member
    rw [map_snd_append, List.count_append, bracketed.closes region member,
      Emission.count_closes_labelMarks, bracketed.distinct.of_append_left.count]
    simp only [closed_iff bracketed numbered count allowed member, List.mem_append,
      List.mem_singleton]
    by_cases ends : region.finish = id
    · simp [ends, fresh]
    · simp [ends]
  marks := by
    intro entry member
    rcases List.mem_append.mp member with old | new
    · exact bracketed.marks entry old
    · obtain ⟨mark, here, rfl⟩ := List.mem_map.mp new
      obtain ⟨region, present, ⟨rfl, rfl⟩ | ⟨rfl, rfl⟩⟩ := region_of_mem_labelMarks allowed here
      · exact ⟨region, present, .inl rfl⟩
      · exact ⟨region, present, .inr rfl⟩
  places := by
    intro entry member
    rcases List.mem_append.mp member with old | new
    · obtain ⟨place, passed, same⟩ := bracketed.places entry old
      exact ⟨place, by simp [passed], same⟩
    · obtain ⟨mark, _, rfl⟩ := List.mem_map.mp new
      exact ⟨id, by simp, rfl⟩
  ordered := by
    intro region member ended
    rcases List.mem_append.mp ended with old | new
    · exact (bracketed.ordered region member old).trans (List.sublist_append_left ..)
    · have finish := List.mem_singleton.mp new
      have started := started_of_finish bracketed numbered count allowed member finish
      have first := opening_mem bracketed numbered member started
      have closes := (closed_iff bracketed numbered count allowed member).mpr finish
      have second : (some region.finish, .closes region.seq) ∈
          (Emission.labelMarks scope closed id).map (some id, ·) := by
        simp [Emission.labelMarks, finish, closes]
      exact (List.singleton_sublist.mpr first).append (List.singleton_sublist.mpr second)
  closesFirst := by
    refine List.pairwise_append.mpr ⟨bracketed.closesFirst, ?_, ?_⟩
    · refine List.pairwise_map.mpr ?_
      refine (Emission.pairwise_labelMarks scope closed id).imp ?_
      intro earlier later kept _
      exact kept
    · intro earlier old later new same
      obtain ⟨place, passed, here⟩ := bracketed.places earlier old
      obtain ⟨mark, _, rfl⟩ := List.mem_map.mp new
      exact absurd (Option.some.inj (here.symm.trans same) ▸ passed) fresh

end Bracketed

namespace Emission

open C

/-! Bodies -/

theorem lands_comment (reached : Label → Jump → Prop) (annotate : Bool) (instruction : Instr) :
    Lands reached [] (if annotate then annotation instruction else []) := by
  refine lands_of_straight ?_
  split
  · unfold annotation
    split <;> simp [Item.AllOf, Stmt.isStraight]
  · simp

theorem instr_label_eq_ok {context : MethodContext} {id : Label} {state after : BodyState}
    {items : List Item}
    (ran : (instr context (.label id)).run.run state = (.ok items, after)) :
    ∃ opened, label state.scope state.openRegions id = .ok (items, opened) ∧
      after = { state with openRegions := opened } := by
  simp only [instr, Emit.run_bind, Emit.run_get] at ran
  cases made : label state.scope state.openRegions id with
  | error error =>
      rw [made] at ran
      cases ran
  | ok result =>
      rw [made] at ran
      cases ran
      exact ⟨_, rfl, rfl⟩

theorem marksFrom_of_label {scope : MethodScope} {opened after : List Nat} {id : Label}
    {items : List Item} (success : label scope opened id = .ok (items, after))
    (referenced : ∀ region ∈ scope.regions, scope.isReferenced region.start = true ∧
      scope.isReferenced region.finish = true) (place : Option Label) (rest : List Item) :
    ∃ closed stillOpen next, opened = closed ++ stillOpen ∧
      closed.length = (scope.endingAt id).length ∧
      closed ⊆ (scope.endingAt id).map (·.seq) ∧
      after = (scope.beginningAt id).map (·.seq) ++ stillOpen ∧
      marksFrom place (items ++ rest) =
        (labelMarks scope closed id).map (some id, ·) ++ marksFrom next rest := by
  obtain ⟨closed, stillOpen, parts, count, allowed, rfl, rfl⟩ := label_eq_ok success
  cases known : scope.isReferenced id with
  | true =>
      refine ⟨closed, stillOpen, some id, parts, count, allowed, rfl, ?_⟩
      simpa [marksFrom] using marksFrom_label scope closed id (some id) rest
  | false =>
      -- No region begins or ends at a label that nothing refers to.
      have none : scope.endingAt id = [] ∧ scope.beginningAt id = [] := by
        constructor
        · refine List.filter_eq_nil_iff.mpr fun region member finish => ?_
          simp [← of_decide_eq_true finish, (referenced region member).2] at known
        · refine List.filter_eq_nil_iff.mpr fun region member start => ?_
          simp [← of_decide_eq_true start, (referenced region member).1] at known
      obtain rfl : closed = [] := List.length_eq_zero_iff.mp (by simp [count, none])
      refine ⟨[], stillOpen, place, parts, count, allowed, rfl, ?_⟩
      simp [labelMarks, none]

theorem bracketed_instrs {context : MethodContext} {annotate : Bool} {instructions : List Instr}
    {state after : BodyState} {items : List Item}
    (ran : (instrs context annotate instructions).run.run state = (.ok items, after))
    {done : List Label} {placed : List (Option Label × Mark)}
    (bracketed : Bracketed state.scope.regions done placed state.openRegions)
    (numbered : (state.scope.regions.map (·.seq)).Nodup)
    (fresh : (done ++ instructions.filterMap Listing.labelOf?).Nodup)
    (referenced : ∀ region ∈ state.scope.regions, state.scope.isReferenced region.start = true ∧
      state.scope.isReferenced region.finish = true) (place : Option Label) :
    Bracketed state.scope.regions (done ++ instructions.filterMap Listing.labelOf?)
      (placed ++ marksFrom place items) after.openRegions := by
  -- Only labels place marks, so that the invariant changes at labels alone.
  induction instructions generalizing state items done placed place with
  | nil =>
      cases ran
      simpa [marksFrom] using bracketed
  | cons instruction rest ih =>
      obtain ⟨first, middle, others, here, later, rfl⟩ := instrs_cons_eq_ok ran
      have silent := (lands_comment (fun _ _ => True) annotate instruction).1
      rw [List.append_assoc, marksFrom_append_of_quiet silent]
      cases found : Listing.labelOf? instruction with
      | none =>
          obtain ⟨same, emits⟩ := leaves_instr found here
          rw [List.filterMap_cons_none found] at fresh ⊢
          rw [marksFrom_append_of_quiet emits.lands.1, ← same.regions]
          refine ih later ?_ (by rwa [same.regions]) fresh ?_ place
          · rwa [same.regions, same.opened]
          · simpa only [MethodScope.isReferenced, same.regions, same.referenced] using referenced
      | some id =>
          obtain rfl := Listing.labelOf?_eq_some found
          obtain ⟨opened, made, rfl⟩ := instr_label_eq_ok here
          obtain ⟨closed, stillOpen, next, parts, count, allowed, rfl, marks⟩ :=
            marksFrom_of_label made referenced place others
          rw [List.filterMap_cons_some found, List.append_cons] at fresh ⊢
          rw [marks, ← List.append_assoc]
          have new : id ∉ done := fun old =>
            List.disjoint_of_nodup_append fresh.of_append_left old (List.mem_singleton_self id)
          rw [parts] at bracketed
          exact ih later (bracketed.step numbered new count allowed) numbered fresh referenced next

/-! Printed scopes -/

end Emission

namespace C

inductive Scope where
  | label (id : Label)
  | opens (region : Region)
  | closes (region : Region)
deriving DecidableEq, Repr

namespace Scope

def caught (region : Region) : String :=
  match region.catchType with
  | some name => "CLASS_ID_" ++ Symbol.ofClass name
  | none => "CATCH_ALL"

/-- A region keeps the offset it is opened at in a variable of its own, by which it is closed. -/
def lines : Scope → List String
  | label id => ["label_" ++ toString id.toNat ++ ": ;\n"]
  | opens region =>
    ["    SAVE_TRY_OFFSET(__try_offset_" ++ toString region.seq ++ ");\n",
     "    BEGIN_TRY(" ++ caught region ++ ", label_" ++ toString region.handler.toNat ++
       ", __try_offset_" ++ toString region.seq ++ ");\n"]
  | closes region => ["    END_TRY(__try_offset_" ++ toString region.seq ++ ");\n"]

def region? : Scope → Option Region
  | label _ => none
  | opens region | closes region => some region

def marksFrom : Option Label → List Scope → List (Option Label × Mark)
  | _, [] => []
  | _, label id :: rest => marksFrom (some id) rest
  | place, opens region :: rest => (place, .opens region.seq) :: marksFrom place rest
  | place, closes region :: rest => (place, .closes region.seq) :: marksFrom place rest

end Scope

inductive Shows (regions : List Region) : List Item → List Scope → Prop
  | nil : Shows regions [] []
  | quiet {item rest scopes} : item.isQuiet = true → linesOf .scope [item] = [] →
      Shows regions rest scopes → Shows regions (item :: rest) scopes
  | label {id rest scopes} : Shows regions rest scopes →
      Shows regions (.anchor id :: rest) (.label id :: scopes)
  | opens {region rest scopes} : region ∈ regions → Shows regions rest scopes →
      Shows regions (Emission.openRegion region ++ rest) (.opens region :: scopes)
  | closes {region rest scopes} : region ∈ regions → Shows regions rest scopes →
      Shows regions (.stmt (.endTry region.seq) :: rest) (.closes region :: scopes)

theorem linesOf_anchor (id : Label) : linesOf .scope [.anchor id] = (Scope.label id).lines :=
  linesOf_of_all rfl (List.forall_mem_singleton.mpr (Emission.lineKind_anchor id))

theorem linesOf_openRegion (region : Region) :
    linesOf .scope (Emission.openRegion region) = (Scope.opens region).lines := by
  have saves : line 1 (Stmt.saveTry region.seq).text =
      "    SAVE_TRY_OFFSET(__try_offset_" ++ toString region.seq ++ ");\n" := by
    rw [line_one, Stmt.text_saveTry, tryVariable]
    simp [← String.toList_inj]
  have classes : Emission.catchClass region = Scope.caught region := by
    unfold Emission.catchClass Scope.caught
    rfl
  have begins : line 1
      (Stmt.beginTry (Emission.catchClass region) region.handler region.seq).text =
        "    BEGIN_TRY(" ++ Scope.caught region ++ ", label_" ++ toString region.handler.toNat ++
          ", __try_offset_" ++ toString region.seq ++ ");\n" := by
    rw [line_one, Stmt.text_beginTry, tryVariable, labelName, classes]
    simp [← String.toList_inj]
  rw [Scope.lines, ← saves, ← begins]
  refine linesOf_of_all rfl (List.forall_mem_cons.mpr ⟨Emission.lineKind_saveTry 1 region.seq, ?_⟩)
  exact List.forall_mem_singleton.mpr (Emission.lineKind_mark (by simp [Stmt.mark?]) 1)

theorem linesOf_endTry (region : Region) :
    linesOf .scope [.stmt (.endTry region.seq)] = (Scope.closes region).lines := by
  have closes : line 1 (Stmt.endTry region.seq).text =
      "    END_TRY(__try_offset_" ++ toString region.seq ++ ");\n" := by
    rw [line_one, Stmt.text_endTry, tryVariable]
    simp [← String.toList_inj]
  rw [Scope.lines, ← closes]
  exact linesOf_of_all rfl
    (List.forall_mem_singleton.mpr (Emission.lineKind_mark (by simp [Stmt.mark?]) 1))

namespace Shows

variable {regions : List Region} {items : List Item} {scopes : List Scope}

theorem append {others : List Item} {more : List Scope} (first : Shows regions items scopes)
    (second : Shows regions others more) : Shows regions (items ++ others) (scopes ++ more) := by
  induction first with
  | nil => exact second
  | quiet silent none _ ih => exact .quiet silent none ih
  | label _ ih => exact .label ih
  | opens known _ ih =>
      rw [List.append_assoc]
      exact .opens known ih
  | closes known _ ih => exact .closes known ih

theorem of_quiet (silent : items.all Item.isQuiet = true) (none : linesOf .scope items = []) :
    Shows regions items [] := by
  induction items with
  | nil => exact .nil
  | cons item rest ih =>
      rw [linesOf_cons, List.append_eq_nil_iff] at none
      rw [List.all_cons, Bool.and_eq_true] at silent
      exact .quiet silent.1 none.1 (ih silent.2 none.2)

theorem linesOf (shows : Shows regions items scopes) :
    linesOf .scope items = scopes.flatMap Scope.lines := by
  induction shows with
  | nil => rfl
  | quiet _ none _ ih => rw [linesOf_cons, none, ih, List.nil_append]
  | label _ ih => rw [linesOf_cons, linesOf_anchor, ih, List.flatMap_cons]
  | opens _ _ ih => rw [linesOf_append, linesOf_openRegion, ih, List.flatMap_cons]
  | closes _ _ ih => rw [linesOf_cons, linesOf_endTry, ih, List.flatMap_cons]

theorem marksFrom (shows : Shows regions items scopes) (place : Option Label) :
    Scope.marksFrom place scopes = marksFrom place items := by
  induction shows generalizing place with
  | nil => rfl
  | @quiet item rest _ silent _ _ ih =>
      have alone : [item].all Item.isQuiet = true := by simpa using silent
      have same := marksFrom_append_of_quiet alone place rest
      rw [List.singleton_append] at same
      rw [ih, same]
  | label _ ih => exact ih _
  | opens _ _ ih => rw [Scope.marksFrom, ih]; rfl
  | closes _ _ ih => rw [Scope.marksFrom, ih]; rfl

theorem of_closed {ending : List Region} (known : ∀ region ∈ ending, region ∈ regions)
    {closed : List Nat} (allowed : closed ⊆ ending.map (·.seq)) :
    ∃ scopes, Shows regions (closed.map fun seq => .stmt (.endTry seq)) scopes := by
  induction closed with
  | nil => exact ⟨[], .nil⟩
  | cons seq rest ih =>
      obtain ⟨scopes, shows⟩ := ih (List.subset_of_cons_subset allowed)
      obtain ⟨region, ends, rfl⟩ := List.mem_map.mp (allowed List.mem_cons_self)
      exact ⟨.closes region :: scopes, .closes (known region ends) shows⟩

theorem of_opened {begun : List Region} (known : ∀ region ∈ begun, region ∈ regions) :
    Shows regions (begun.flatMap Emission.openRegion) (begun.map .opens) := by
  induction begun with
  | nil => exact .nil
  | cons region rest ih =>
      rw [List.forall_mem_cons] at known
      exact .opens known.1 (ih known.2)

theorem known (shows : Shows regions items scopes) {scope : Scope} (member : scope ∈ scopes)
    {region : Region} (names : scope.region? = some region) : region ∈ regions := by
  induction shows with
  | nil => cases member
  | quiet _ _ _ ih => exact ih member
  | label _ ih =>
      rcases List.mem_cons.mp member with rfl | later
      · cases names
      · exact ih later
  | opens here _ ih | closes here _ ih =>
      rcases List.mem_cons.mp member with rfl | later
      · cases names
        exact here
      · exact ih later

end Shows

end C

namespace Emission

open C

theorem shows_label {scope : MethodScope} {opened after : List Nat} {id : Label} {items : List Item}
    (success : label scope opened id = .ok (items, after)) :
    ∃ scopes, Shows scope.regions items scopes := by
  obtain ⟨closed, stillOpen, _, _, allowed, rfl, _⟩ := label_eq_ok success
  have anchors : ∃ scopes,
      Shows scope.regions (if scope.isReferenced id then [Item.anchor id] else []) scopes := by
    split
    · exact ⟨_, .label .nil⟩
    · exact ⟨_, .nil⟩
  obtain ⟨first, anchored⟩ := anchors
  have ending : ∀ region ∈ scope.endingAt id, region ∈ scope.regions :=
    fun _ ends => (List.mem_filter.mp ends).1
  have beginning : ∀ region ∈ (scope.beginningAt id).reverse, region ∈ scope.regions :=
    fun _ begins => (List.mem_filter.mp (List.mem_reverse.mp begins)).1
  obtain ⟨second, closes⟩ := Shows.of_closed ending allowed
  have opens := Shows.of_opened beginning
  exact ⟨_, (anchored.append closes).append opens⟩

theorem routine_comment (context : MethodContext) (annotate : Bool) (instruction : Instr) :
    Routine context (if annotate then annotation instruction else []) := by
  split
  · unfold annotation
    split <;> simp [Ordinary]
  · exact routine_nil

theorem shows_instrs {context : MethodContext} (named : context.list.WellNamed) {annotate : Bool}
    {instructions : List Instr} {state after : BodyState} {items : List Item}
    (ran : (instrs context annotate instructions).run.run state = (.ok items, after)) :
    ∃ scopes, Shows state.scope.regions items scopes := by
  induction instructions generalizing state items with
  | nil =>
      cases ran
      exact ⟨[], .nil⟩
  | cons instruction rest ih =>
      obtain ⟨first, middle, others, here, later, rfl⟩ := instrs_cons_eq_ok ran
      obtain ⟨more, following⟩ := ih later
      have comment := routine_comment context annotate instruction
      have silent : Shows state.scope.regions (if annotate then annotation instruction else []) [] :=
        .of_quiet (lands_comment (fun _ _ => True) annotate instruction).1
          (comment.linesOf named (by decide))
      cases found : Listing.labelOf? instruction with
      | none =>
          obtain ⟨same, emits⟩ := leaves_instr found here
          have shown : Shows state.scope.regions first [] :=
            .of_quiet emits.lands.1 (emits.linesOf_scope named)
          rw [same.regions] at following
          exact ⟨_, (silent.append shown).append following⟩
      | some id =>
          obtain rfl := Listing.labelOf?_eq_some found
          obtain ⟨opened, made, rfl⟩ := instr_label_eq_ok here
          obtain ⟨scopes, shown⟩ := shows_label made
          exact ⟨_, (silent.append shown).append following⟩

theorem body_eq_ok {context : MethodContext} {annotate : Bool} {state after : BodyState}
    {items : List Item} (ran : (body context annotate).run.run state = (.ok items, after)) :
    (instrs context annotate context.list.instrs).run.run state = (.ok items, after) ∧
      after.openRegions = [] := by
  simp only [body, Emit.run_bind, Emit.run_get] at ran
  split at ran
  next made last here =>
    cases opened : last.openRegions with
    | nil =>
        rw [opened] at ran
        cases ran
        exact ⟨here, opened⟩
    | cons innermost outer =>
        rw [opened] at ran
        cases ran
  next => cases ran

end Emission

theorem Listing.WellNamed.under {list : Listing} (named : list.WellNamed) (options : Options) :
    (list.under options).WellNamed := by
  unfold Listing.under
  split
  · exact named.of_names list.reduces_fold.names
  · exact named

/-- In the body of a lowered method the openings and closings of try regions are well bracketed. Each
region of the exception table is opened once, at its start, and later closed once, at its end; there
are no other marks, and a label closes regions before it opens some. The lines of the code that carry
labels and open or close regions print just that. -/
theorem try_scopes_well_nested {method : MethodDecl} {owner : String} {index : ClassIndex}
    {options : Options} {unit after : UnitState} {lowered : LoweredMethod}
    (success : method.lower owner index options unit = (.ok lowered, after)) :
    let placed := C.marksFrom none lowered.function.body
    C.balance? [] (placed.map Prod.snd) = some [] ∧
    (∀ region ∈ method.regions,
      (placed.map Prod.snd).count (.opens region.seq) = 1 ∧
      (placed.map Prod.snd).count (.closes region.seq) = 1 ∧
      [(some region.start, .opens region.seq), (some region.finish, .closes region.seq)].Sublist
        placed) ∧
    (∀ entry ∈ placed, ∃ region ∈ method.regions,
      entry = (some region.start, .opens region.seq) ∨
        entry = (some region.finish, .closes region.seq)) ∧
    (placed.Pairwise fun earlier later =>
      earlier.1 = later.1 → earlier.2.isOpening = true → later.2.isOpening = true) ∧
    lowered.code = lowered.function.opening ++
      String.join (lowered.function.body.flatMap C.Item.lines) ++ "\x7d\n" ∧
    ∃ scopes : List C.Scope,
      (lowered.function.body.flatMap C.Item.lines).filter (C.lineKind · = .scope) =
        scopes.flatMap C.Scope.lines ∧
      C.Scope.marksFrom none scopes = placed ∧
      ∀ scope ∈ scopes, ∀ region, scope.region? = some region → region ∈ method.regions := by
  intro placed
  obtain ⟨list, assembled, made, lowering⟩ := MethodDecl.lower_eq_ok success
  obtain ⟨type, scope, lowers⟩ := MethodHeader.lower_eq_ok lowering
  obtain ⟨labels, regions, targets⟩ := MethodScope.markLabels_eq_ok lowers.marked
  obtain ⟨state, ran, _⟩ := MethodHeader.lowerBody_eq_ok lowers.body
  obtain ⟨emitted, closed⟩ := Emission.body_eq_ok ran
  have registered : scope.regions = method.regions :=
    regions.trans (MethodDecl.regions_assemble made)
  have defined (region : Region) (member : region ∈ scope.regions) :
      (region.start ∈ (list.under options).labels ∧ scope.isReferenced region.start = true) ∧
        region.finish ∈ (list.under options).labels ∧ scope.isReferenced region.finish = true := by
    rw [regions] at member
    have needed (label : Label) (mentioned : label ∈ [region.start, region.finish, region.handler]) :
        label ∈ assembled.scope.targets (list.under options) :=
      List.mem_append.mpr (.inr (List.mem_flatMap.mpr ⟨region, member, mentioned⟩))
    exact ⟨targets _ (needed _ (by simp)), targets _ (needed _ (by simp))⟩
  have bracketed := Emission.bracketed_instrs emitted (.empty scope.regions)
    (by rw [registered]; exact method.nodup_regions) labels
    (fun region member => ⟨(defined region member).1.2, (defined region member).2.2⟩) none
  rw [closed, List.nil_append, List.nil_append] at bracketed
  have named : (list.under options).WellNamed := (MethodDecl.wellNamed_assemble made).under options
  obtain ⟨scopes, shows⟩ := Emission.shows_instrs named emitted
  rw [← registered]
  refine ⟨bracketed.balanced, ?_, bracketed.marks, bracketed.closesFirst, C.Function.text_eq_lines _,
    scopes, shows.linesOf, shows.marksFrom none, fun scope member region => shows.known member⟩
  intro region member
  obtain ⟨⟨start, _⟩, finish, _⟩ := defined region member
  refine ⟨?_, ?_, bracketed.ordered region member finish⟩
  · exact (bracketed.opens region member).trans (if_pos start)
  · exact (bracketed.closes region member).trans (if_pos finish)

def Sample.guarded : MethodDecl :=
  { name := "run", descriptor := "()V", isStatic := true, maxStack := 1, maxLocals := 0
    code :=
      [.label 1, .simple "nop" none, .label 2, .simple "nop" none, .label 3, .simple "nop" none,
       .label 4, .simple "return" none, .label 9, .simple "pop" none, .simple "return" none]
    tryCatch := [⟨1, 3, 9, none⟩, ⟨1, 4, 9, none⟩, ⟨2, 3, 9, some "t/Fault"⟩, ⟨4, 4, 9, none⟩] }

def Sample.guardedScopes : List String :=
  ["label_1: ;\n",
   "    SAVE_TRY_OFFSET(__try_offset_1);\n",
   "    BEGIN_TRY(CATCH_ALL, label_9, __try_offset_1);\n",
   "    SAVE_TRY_OFFSET(__try_offset_0);\n",
   "    BEGIN_TRY(CATCH_ALL, label_9, __try_offset_0);\n",
   "label_2: ;\n",
   "    SAVE_TRY_OFFSET(__try_offset_2);\n",
   "    BEGIN_TRY(CLASS_ID_t_Fault, label_9, __try_offset_2);\n",
   "label_3: ;\n",
   "    END_TRY(__try_offset_2);\n",
   "    END_TRY(__try_offset_0);\n",
   "label_4: ;\n",
   "    END_TRY(__try_offset_1);\n",
   "label_9: ;\n"]

theorem try_scopes_well_nested_sample :
    Sample.guarded.regions.length = 3 ∧
    ∃ lowered after, Sample.guarded.lower "t/Main" .empty {} .empty = (.ok lowered, after) ∧
      C.balance? [] ((C.marksFrom none lowered.function.body).map Prod.snd) = some [] ∧
      [(some 2, .opens 2), (some 3, .closes 2)].Sublist
        (C.marksFrom none lowered.function.body) ∧
      ∃ scopes, C.Scope.marksFrom none scopes = C.marksFrom none lowered.function.body ∧
        scopes.flatMap C.Scope.lines = Sample.guardedScopes := by
  refine ⟨by decide, ?_⟩
  have accepted : (Sample.guarded.lower "t/Main" .empty {} .empty).1.map (fun lowered =>
      (lowered.function.body.flatMap C.Item.lines).filter (C.lineKind · = .scope)) =
        .ok Sample.guardedScopes := by
    decide +kernel
  obtain ⟨lowered, success, lines⟩ := (map_eq_ok_iff ..).mp accepted
  have whole : Sample.guarded.lower "t/Main" .empty {} .empty =
      (.ok lowered, (Sample.guarded.lower "t/Main" .empty {} .empty).2) := Prod.ext success rfl
  obtain ⟨balanced, regions, _, _, _, scopes, printed, marks, _⟩ := try_scopes_well_nested whole
  obtain ⟨_, _, pair⟩ := regions (TryEntry.region ⟨2, 3, 9, some "t/Fault"⟩ 2) (by decide)
  exact ⟨lowered, _, whole, balanced, pair, scopes, marks, printed.symm.trans lines⟩

end BytecodeToC
