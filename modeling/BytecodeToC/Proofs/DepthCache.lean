import BytecodeToC.Proofs.Assembled
import Mathlib.Algebra.Ring.Int.Defs
import Mathlib.Data.List.DropRight
import Mathlib.Data.List.Infix
import Mathlib.Data.List.TakeWhile

/-!
Remembered depths never show. Whatever was done to a unit, a query for the depth of a label answers
what a fresh unit with the same try regions answers, as long as the queries about one method agree on
the order of its labels.

A remembered depth is right for the regions registered so far and for the order that the query which
computed it was given. Whatever changes the regions forgets the depths.
-/

namespace BytecodeToC

namespace TryTable

/-! Counting without a memory -/

def gain (regions : List Region) (label : Label) : Int :=
  (regions.countP (·.start = label) : Int) - regions.countP (·.finish = label)

def balance (regions : List Region) (labels : List Label) : Int := (labels.map (gain regions)).sum

/-- Wherever one stops, no more regions have ended than begun. -/
def NeverShort (regions : List Region) (labels : List Label) : Prop :=
  ∀ part, part <+: labels → 0 ≤ balance regions part

/-- The depth of `target` is the balance of the labels before its first occurrence. There is none if
the balance falls below zero on the way or the label never comes. -/
inductive Counted (regions : List Region) (labels : List Label) (target : Label) :
    Except Error Nat → Prop
  | found {depth : Nat} (present : target ∈ labels)
      (enough : NeverShort regions (labels.takeWhile (· ≠ target)))
      (sum : (depth : Int) = balance regions (labels.takeWhile (· ≠ target))) :
      Counted regions labels target (.ok depth)
  | short {part : List Label} {label : Label}
      (reached : part ++ [label] <+: labels.takeWhile (· ≠ target))
      (enough : NeverShort regions part) (less : balance regions (part ++ [label]) < 0) :
      Counted regions labels target (.error (.unbalanced (.tooManyCloses label)))
  | missing (absent : target ∉ labels) (enough : NeverShort regions labels) :
      Counted regions labels target (.error (.unsupported (.missingLabel target)))

variable {regions : List Region} {labels done rest : List Label} {target : Label}

theorem balance_concat (regions : List Region) (labels : List Label) (label : Label) :
    balance regions (labels ++ [label]) = balance regions labels + gain regions label := by
  simp [balance]

theorem neverShort_concat (enough : NeverShort regions done) {label : Label}
    (more : 0 ≤ balance regions (done ++ [label])) : NeverShort regions (done ++ [label]) := by
  intro part reached
  rcases List.prefix_concat_iff.mp reached with rfl | earlier
  · exact more
  · exact enough part earlier

theorem takeWhile_split (fresh : target ∉ done) (rest : List Label) :
    (done ++ rest).takeWhile (· ≠ target) = done ++ rest.takeWhile (· ≠ target) := by
  refine List.takeWhile_append_of_pos fun label member => ?_
  exact decide_eq_true fun same => fresh (same ▸ member)

theorem takeWhile_eq_self (absent : target ∉ labels) : labels.takeWhile (· ≠ target) = labels := by
  simpa using takeWhile_split absent []

theorem eq_of_first_short {whole first second : List Label} {one other : Label}
    (reached : first ++ [one] <+: whole) (enough : NeverShort regions first)
    (less : balance regions (first ++ [one]) < 0)
    (reached' : second ++ [other] <+: whole) (enough' : NeverShort regions second)
    (less' : balance regions (second ++ [other]) < 0) : one = other := by
  -- Of two prefixes that end at a negative balance, neither can be longer.
  have shorter {left right : List Label} {label last : Label}
      (begins : left ++ [label] <+: right ++ [last]) (fine : NeverShort regions right)
      (short : balance regions (left ++ [label]) < 0) : label = last := by
    rcases List.prefix_concat_iff.mp begins with same | earlier
    · exact (List.append_inj' same rfl).2 |> List.singleton_injective
    · have nonneg := fine _ earlier
      omega
  rcases List.prefix_or_prefix_of_prefix reached reached' with begins | begins
  · exact shorter begins enough' less
  · exact (shorter begins enough less').symm

theorem Counted.unique {one other : Except Error Nat} (first : Counted regions labels target one)
    (second : Counted regions labels target other) : one = other := by
  cases first with
  | found present enough sum =>
      cases second with
      | found _ _ again =>
          have same := sum.trans again.symm
          exact congrArg Except.ok (by omega)
      | short reached _ less =>
          have nonneg := enough _ reached
          omega
      | missing absent _ => exact absurd present absent
  | short reached enough less =>
      cases second with
      | found _ fine _ =>
          have nonneg := fine _ reached
          omega
      | short reached' enough' less' =>
          rw [eq_of_first_short reached enough less reached' enough' less']
      | missing absent fine =>
          rw [takeWhile_eq_self absent] at reached
          have nonneg := fine _ reached
          omega
  | missing absent enough =>
      cases second with
      | found present _ _ => exact absurd present absent
      | short reached _ less =>
          rw [takeWhile_eq_self absent] at reached
          have nonneg := enough _ reached
          omega
      | missing _ _ => rfl

end TryTable

open TryTable

namespace MethodScope

theorem gain_regions (scope : MethodScope) (label : Label) :
    gain scope.regions label =
      ((scope.beginningAt label).length : Int) - (scope.endingAt label).length := by
  simp [gain, beginningAt, endingAt, List.countP_eq_length_filter]

theorem counted_depthFrom {scope : MethodScope} {labels done rest : List Label} {target : Label}
    {depth : Nat} (split : labels = done ++ rest) (fresh : target ∉ done)
    (enough : NeverShort scope.regions done) (sum : (depth : Int) = balance scope.regions done) :
    Counted scope.regions labels target (scope.depthFrom target depth rest) := by
  -- The depth is the balance of the labels behind the walk, which has not met the target there.
  induction rest generalizing done depth with
  | nil =>
      rw [List.append_nil] at split
      subst split
      exact .missing fresh enough
  | cons label rest ih =>
      simp only [depthFrom]
      split
      next here =>
        subst here
        have passed : labels.takeWhile (· ≠ label) = done := by
          rw [split, takeWhile_split fresh]
          simp
        exact .found (by simp [split]) (passed ▸ enough) (passed ▸ sum)
      next other =>
        have further : labels = done ++ [label] ++ rest := by simp [split]
        have unseen : target ∉ done ++ [label] := by simpa [fresh] using Ne.symm other
        have next := balance_concat scope.regions done label
        rw [gain_regions] at next
        split
        next fewer =>
          refine .short ?_ enough (by omega)
          rw [further, takeWhile_split unseen]
          exact List.prefix_append ..
        next =>
          exact ih further unseen (neverShort_concat enough (by omega)) (by omega)

theorem counted_depthFrom_zero (scope : MethodScope) (labels : List Label) (target : Label) :
    Counted scope.regions labels target (scope.depthFrom target 0 labels) := by
  refine counted_depthFrom (List.nil_append labels).symm (by simp) ?_ rfl
  intro part reached
  rw [List.prefix_nil.mp reached]
  exact Int.le_refl 0

end MethodScope

namespace UnitState

/-! Operations -/

inductive Operation where
  | register (entry : TryEntry)
  | markReferenced (label : Label)
  | intern (entry : PoolEntry)
  | recordVirtualCall (symbol : String)
  | beginMethod
  | reset
  | catchDepth (target : Label) (labels : List Label)
deriving DecidableEq, Repr

def apply (unit : UnitState) : Operation → UnitState
  | .register entry =>
    { unit with
      scope := (unit.scope.register entry.start entry.finish entry.handler entry.catchType).2 }
  | .markReferenced label => { unit with scope := unit.scope.markReferenced label }
  | .intern entry => { unit with pool := (unit.pool.intern entry).2 }
  | .recordVirtualCall symbol => { unit with virtualCalls := unit.virtualCalls.insert symbol }
  | .beginMethod => unit.beginMethod
  | .reset => .empty
  | .catchDepth target labels => { unit with scope := (unit.scope.catchDepth target labels).2 }

def after (history : List Operation) : UnitState := history.foldl apply .empty

namespace Operation

def startsAnew : Operation → Bool
  | beginMethod | reset => true
  | _ => false

def registered? : Operation → Option TryEntry
  | register entry => some entry
  | _ => none

def order? : Operation → Option (List Label)
  | catchDepth _ labels => some labels
  | _ => none

def since (history : List Operation) : List Operation := history.rtakeWhile (!·.startsAnew)

def registrations (history : List Operation) : List Operation :=
  (since history).filter (·.registered?.isSome)

def regionsSince (history : List Operation) : List Region :=
  ((since history).filterMap registered?).zipIdx.map fun numbered => numbered.1.region numbered.2

/-- Queries with no new start between them are given the same order of labels. -/
def OneOrder (history : List Operation) : Prop :=
  ∀ part, part <:+: history → (∀ operation ∈ part, operation.startsAnew = false) →
    (part.filterMap order?).Pairwise (· = ·)

instance (history : List Operation) : Decidable (OneOrder history) :=
  decidable_of_iff
    (∀ tail ∈ history.tails, ∀ part ∈ tail.inits,
      (∀ operation ∈ part, operation.startsAnew = false) → (part.filterMap order?).Pairwise (· = ·))
    (by
      simp only [OneOrder, List.mem_tails, List.mem_inits, List.infix_iff_prefix_suffix]
      constructor
      · rintro all part ⟨tail, first, last⟩
        exact all tail last part first
      · intro all tail last part first
        exact all part ⟨tail, first, last⟩)

variable {history : List Operation} {operation : Operation}

theorem since_concat_of_startsAnew (anew : operation.startsAnew = true) :
    since (history ++ [operation]) = [] :=
  List.rtakeWhile_concat_neg _ _ _ (by simp [anew])

theorem since_concat (goesOn : operation.startsAnew = false) :
    since (history ++ [operation]) = since history ++ [operation] :=
  List.rtakeWhile_concat_pos _ _ _ (by simp [goesOn])

theorem startsAnew_of_mem_since (member : operation ∈ since history) :
    operation.startsAnew = false := by
  simpa using List.mem_rtakeWhile_imp member

theorem regionsSince_concat_of_startsAnew (anew : operation.startsAnew = true) :
    regionsSince (history ++ [operation]) = [] := by
  rw [regionsSince, since_concat_of_startsAnew anew]
  rfl

theorem regionsSince_concat_of_registered? (goesOn : operation.startsAnew = false)
    (none : operation.registered? = none) :
    regionsSince (history ++ [operation]) = regionsSince history := by
  rw [regionsSince, since_concat goesOn, List.filterMap_append]
  simp [none, regionsSince]

theorem regionsSince_register (history : List Operation) (entry : TryEntry) :
    regionsSince (history ++ [.register entry]) =
      regionsSince history ++ [entry.region (regionsSince history).length] := by
  rw [regionsSince, since_concat rfl, List.filterMap_append]
  simp [regionsSince, registered?, List.zipIdx_append]

theorem since_registrations (history : List Operation) :
    since (registrations history) = registrations history := by
  refine List.rtakeWhile_eq_self_iff.mpr fun operation member => ?_
  simpa using startsAnew_of_mem_since (List.mem_filter.mp member).1

theorem regionsSince_registrations (history : List Operation) :
    regionsSince (registrations history) = regionsSince history := by
  have kept : (registrations history).filterMap registered? = (since history).filterMap registered? := by
    rw [registrations, List.filterMap_filter]
    refine List.filterMap_congr fun operation _ => ?_
    cases operation.registered? <;> rfl
  rw [regionsSince, since_registrations, kept]
  rfl

theorem OneOrder.eq_of_mem_since {before later : List Operation} {target other : Label}
    {labels used : List Label}
    (agree : OneOrder (before ++ .catchDepth target labels :: later))
    (member : .catchDepth other used ∈ since before) : used = labels := by
  have stretch : since before ++ [.catchDepth target labels] <:+:
      before ++ .catchDepth target labels :: later := by
    obtain ⟨earlier, whole⟩ := List.rtakeWhile_suffix (fun operation => !operation.startsAnew) before
    exact ⟨earlier, later, by simpa [since] using congrArg (· ++ _ :: later) whole⟩
  have same := agree _ stretch (by
    intro operation inside
    rcases List.mem_append.mp inside with old | new
    · exact startsAnew_of_mem_since old
    · rw [List.mem_singleton.mp new]
      rfl)
  rw [List.filterMap_append, List.pairwise_append] at same
  exact same.2.2 used (List.mem_filterMap.mpr ⟨_, member, rfl⟩) labels (by simp [order?])

end Operation

open Operation

/-! What a unit remembers -/

/-- The regions are those registered since the last new start, and every remembered depth is right for
them and for the order of one of the queries since then. -/
structure Remembers (history : List Operation) (scope : MethodScope) : Prop where
  regions : scope.regions = regionsSince history
  depths : ∀ target depth, scope.depths.lookup target = some depth →
    ∃ other labels, .catchDepth other labels ∈ since history ∧
      Counted (regionsSince history) labels target (.ok depth)

variable {history : List Operation} {scope : MethodScope}

theorem Remembers.of_startsAnew {operation : Operation} (anew : operation.startsAnew = true) :
    Remembers (history ++ [operation]) .empty where
  regions := (regionsSince_concat_of_startsAnew anew).symm
  depths := by
    intro target depth known
    simp [MethodScope.empty] at known

theorem Remembers.concat (remembers : Remembers history scope) {operation : Operation}
    (goesOn : operation.startsAnew = false) (none : operation.registered? = none) {changed : MethodScope}
    (regions : changed.regions = scope.regions) (depths : changed.depths = scope.depths) :
    Remembers (history ++ [operation]) changed := by
  have same : regionsSince (history ++ [operation]) = regionsSince history :=
    regionsSince_concat_of_registered? goesOn none
  refine ⟨by rw [regions, same, remembers.regions], ?_⟩
  intro target depth known
  rw [depths] at known
  obtain ⟨other, labels, asked, right⟩ := remembers.depths target depth known
  refine ⟨other, labels, ?_, by rwa [same]⟩
  rw [since_concat goesOn]
  exact List.mem_append_left _ asked

theorem Remembers.register (remembers : Remembers history scope) (entry : TryEntry) :
    Remembers (history ++ [.register entry])
      (scope.register entry.start entry.finish entry.handler entry.catchType).2 where
  regions := by
    rw [regionsSince_register, ← remembers.regions]
    rfl
  depths := by
    intro target depth known
    simp [MethodScope.register] at known

theorem Remembers.counted_catchDepth (remembers : Remembers history scope) {target : Label}
    {labels : List Label}
    (agree : ∀ other used, .catchDepth other used ∈ since history → used = labels) :
    Counted (regionsSince history) labels target (scope.catchDepth target labels).1 := by
  have computed : Counted (regionsSince history) labels target (scope.depthFrom target 0 labels) :=
    remembers.regions ▸ scope.counted_depthFrom_zero labels target
  unfold MethodScope.catchDepth
  split
  next depth known =>
    obtain ⟨other, used, asked, right⟩ := remembers.depths target depth known
    rwa [agree other used asked] at right
  next =>
    split
    next made => rwa [made] at computed
    next made => rwa [made] at computed

theorem Remembers.catchDepth (remembers : Remembers history scope) (target : Label)
    (labels : List Label) :
    Remembers (history ++ [.catchDepth target labels]) (scope.catchDepth target labels).2 := by
  have kept : Remembers (history ++ [.catchDepth target labels]) scope :=
    remembers.concat rfl rfl rfl rfl
  unfold MethodScope.catchDepth
  split
  next => exact kept
  next =>
    split
    next depth made =>
      -- The new depth was computed from the order of this very query.
      refine ⟨kept.regions, ?_⟩
      intro label known found
      rw [List.lookup_append, Option.or_eq_some_iff] at found
      rcases found with old | ⟨_, new⟩
      · exact kept.depths label known old
      · by_cases here : label = target
        · obtain rfl : depth = known := by simpa [here] using new
          have asked : .catchDepth target labels ∈ since (history ++ [.catchDepth target labels]) := by
            rw [since_concat rfl]
            simp
          refine ⟨target, labels, asked, ?_⟩
          rw [← kept.regions, here, ← made]
          exact scope.counted_depthFrom_zero labels target
        · simp [List.lookup_cons, beq_false_of_ne here] at new
    next => exact kept

theorem Remembers.apply {unit : UnitState} (remembers : Remembers history unit.scope)
    (operation : Operation) : Remembers (history ++ [operation]) (unit.apply operation).scope := by
  cases operation with
  | register entry => exact remembers.register entry
  | markReferenced label =>
      refine remembers.concat rfl rfl (MethodScope.regions_markReferenced ..) ?_
      unfold UnitState.apply MethodScope.markReferenced
      dsimp only
      split <;> rfl
  | intern entry => exact remembers.concat rfl rfl rfl rfl
  | recordVirtualCall symbol => exact remembers.concat rfl rfl rfl rfl
  | beginMethod => exact .of_startsAnew rfl
  | reset => exact .of_startsAnew rfl
  | catchDepth target labels => exact remembers.catchDepth target labels

theorem remembers_after (history : List Operation) : Remembers history (after history).scope := by
  induction history using List.reverseRecOn with
  | nil => exact ⟨rfl, by intro target depth known; simp [after, empty] at known⟩
  | append_singleton earlier operation ih =>
      rw [after, List.foldl_concat]
      exact ih.apply operation

theorem apply_catchDepth_of_error {unit : UnitState} {target : Label} {labels : List Label}
    {error : Error} (failed : (unit.scope.catchDepth target labels).1 = .error error) :
    unit.apply (.catchDepth target labels) = unit := by
  unfold UnitState.apply
  dsimp only
  unfold MethodScope.catchDepth at failed ⊢
  split at failed
  next => cases failed
  next =>
    split at failed
    next => cases failed
    next => rfl

end UnitState

open UnitState Operation

/-- A query for a depth answers what a fresh unit answers that has the regions registered since the
last new start and remembers nothing: the balance of the labels before the target, or the error that
the balance calls for. A query that fails leaves the unit as it was. -/
theorem depth_queries_answer_afresh {history before later : List Operation} {target : Label}
    {labels : List Label} (agree : OneOrder history)
    (split : history = before ++ .catchDepth target labels :: later) :
    let unit := after before
    let fresh := after (registrations before)
    let answer := (unit.scope.catchDepth target labels).1
    (fresh.scope.regions = regionsSince before ∧ fresh.scope.depths = []) ∧
      answer = (fresh.scope.catchDepth target labels).1 ∧
      TryTable.Counted (regionsSince before) labels target answer ∧
      ∀ error, answer = .error error → unit.apply (.catchDepth target labels) = unit := by
  intro unit fresh answer
  have known : Remembers (registrations before) fresh.scope := remembers_after _
  have silent (other : Label) (used : List Label) :
      .catchDepth other used ∉ since (registrations before) := by
    rw [since_registrations]
    intro member
    cases (List.mem_filter.mp member).2
  have here : Counted (regionsSince before) labels target answer :=
    (remembers_after before).counted_catchDepth fun other used asked =>
      (split ▸ agree).eq_of_mem_since asked
  have there :
      Counted (regionsSince before) labels target (fresh.scope.catchDepth target labels).1 := by
    rw [← regionsSince_registrations]
    exact known.counted_catchDepth fun other used asked => absurd asked (silent other used)
  have forgotten : fresh.scope.depths = [] := by
    cases remembered : fresh.scope.depths with
    | nil => rfl
    | cons first others =>
        obtain ⟨other, used, asked, _⟩ :=
          known.depths first.1 first.2 (remembered ▸ List.lookup_cons_self)
        exact absurd asked (silent other used)
  refine ⟨⟨known.regions.trans (regionsSince_registrations before), forgotten⟩, ?_, here, ?_⟩
  · exact here.unique there
  · intro error failed
    exact apply_catchDepth_of_error failed

def Sample.queries : List Operation :=
  let order : List Label := [0, 1, 2, 3, 4, 9]
  [.register ⟨1, 4, 9, none⟩, .catchDepth 3 order, .register ⟨2, 3, 9, some "t/Fault"⟩,
   .intern (.string "a"), .catchDepth 7 order, .catchDepth 3 order, .beginMethod,
   .register ⟨5, 1, 9, none⟩, .markReferenced 5, .recordVirtualCall "t", .catchDepth 9 [1, 5, 9]]

theorem depth_queries_answer_afresh_sample :
    OneOrder Sample.queries ∧
      ((after (Sample.queries.take 5)).scope.catchDepth 3 [0, 1, 2, 3, 4, 9]).1 = .ok 2 ∧
      TryTable.Counted (regionsSince (Sample.queries.take 5)) [0, 1, 2, 3, 4, 9] 3 (.ok 2) ∧
      TryTable.Counted (regionsSince (Sample.queries.take 10)) [1, 5, 9] 9
        (.error (.unbalanced (.tooManyCloses 1))) := by
  have agree : OneOrder Sample.queries := by decide +kernel
  have second : Sample.queries =
      Sample.queries.take 5 ++ .catchDepth 3 [0, 1, 2, 3, 4, 9] :: Sample.queries.drop 6 := by decide
  have last : Sample.queries = Sample.queries.take 10 ++ .catchDepth 9 [1, 5, 9] :: [] := by decide
  have two : ((after (Sample.queries.take 5)).scope.catchDepth 3 [0, 1, 2, 3, 4, 9]).1 = .ok 2 := by
    decide
  have short : ((after (Sample.queries.take 10)).scope.catchDepth 9 [1, 5, 9]).1 =
      .error (.unbalanced (.tooManyCloses 1)) := by
    decide
  refine ⟨agree, two, ?_, ?_⟩
  · exact two ▸ (depth_queries_answer_afresh agree second).2.2.1
  · exact short ▸ (depth_queries_answer_afresh agree last).2.2.1

end BytecodeToC
