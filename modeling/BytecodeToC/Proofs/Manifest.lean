import BytecodeToC.Proofs.Acceptance
import Mathlib.Data.List.Sort
import Mathlib.Data.String.Basic

/-!
Folding and the manifest. A run over methods visits the same listings with and without folding, since
lowering reads of a unit only the scope of the method and adds to it only virtual calls. What the two
runs say of a visited method differs in its dependencies exactly if folding absorbs an instruction
that mentions a class no remaining instruction mentions.
-/

namespace BytecodeToC

open Result

namespace NameSet

def Sorted (set : NameSet) : Prop := set.names.Pairwise (· < ·)

theorem Sorted.insert {set : NameSet} (sorted : set.Sorted) (name : String) :
    (set.insert name).Sorted := by
  obtain ⟨names⟩ := set
  simp only [Sorted, NameSet.insert] at sorted ⊢
  induction names with
  | nil => simp [insertSorted]
  | cons head rest ih =>
      obtain ⟨first, others⟩ := List.pairwise_cons.mp sorted
      unfold insertSorted
      split
      next => exact sorted
      next differs =>
        split
        next before =>
          refine List.pairwise_cons.mpr ⟨?_, sorted⟩
          intro other member
          rcases List.mem_cons.mp member with rfl | later
          · exact before
          · exact lt_trans before (first other later)
        next notBefore =>
          refine List.pairwise_cons.mpr ⟨?_, ih others⟩
          intro other member
          rcases mem_insertSorted.mp member with rfl | later
          · exact lt_of_le_of_ne (not_lt.mp notBefore) (Ne.symm differs)
          · exact first other later

theorem Sorted.insertAll {set : NameSet} (sorted : set.Sorted) (names : List String) :
    (set.insertAll names).Sorted := by
  induction names generalizing set with
  | nil => exact sorted
  | cons name rest ih => exact ih (sorted.insert name)

theorem sorted_empty : empty.Sorted := List.Pairwise.nil

theorem sorted_ofList (names : List String) : (ofList names).Sorted := sorted_empty.insertAll names

theorem Sorted.ext {set other : NameSet} (first : set.Sorted) (second : other.Sorted)
    (same : ∀ name, name ∈ set ↔ name ∈ other) : set = other := by
  obtain ⟨names⟩ := set
  obtain ⟨others⟩ := other
  congr 1
  exact List.Pairwise.eq_of_mem_iff first second same

theorem ofList_eq_iff (names others : List String) :
    ofList names = ofList others ↔ ∀ name, name ∈ names ↔ name ∈ others := by
  constructor
  · intro same name
    rw [← mem_ofList, same, mem_ofList]
  · intro same
    exact (sorted_ofList names).ext (sorted_ofList others) (by simpa using same)

end NameSet

/-! What lowering reads of a unit, and what it adds -/

namespace MethodHeader

theorem lowerBody_frame (header : MethodHeader) (list : Listing) (locals : List LocalVar)
    (index : ClassIndex) (annotate : Bool) (scope : MethodScope) :
    ∃ result last calls, ∀ pool virtualCalls,
      header.lowerBody list locals index annotate { scope, pool, virtualCalls } =
        (result, { scope := last, pool, virtualCalls := virtualCalls.union calls }) := by
  cases ran : (Emission.body (header.context list locals index) annotate).run.run { scope } with
  | mk result state =>
      exact ⟨_, state.scope, state.virtualCalls, fun _ _ => lowerBody_eq _ _ _ _ _ _ ran⟩

theorem lowerTyped_frame (header : MethodHeader) (type : MethodType) (list : Listing)
    (index : ClassIndex) (options : Options) (scope : MethodScope) :
    ∃ result last calls, ∀ pool virtualCalls,
      header.lowerTyped type list index options { scope, pool, virtualCalls } =
        (result, { scope := last, pool, virtualCalls := virtualCalls.union calls }) := by
  simp only [lowerTyped_eq]
  rcases scope.markLabels (list.under options) with ⟨error | _, marked⟩
  · exact ⟨.error error, marked, .empty, fun _ _ => rfl⟩
  · obtain ⟨result, last, calls, same⟩ := header.lowerBody_frame (list.under options)
      (LocalTable.ofType (list.under options) header.isStatic type) index options.annotate marked
    simp only [same]
    rcases result with error | ⟨body, virtualCalls⟩ <;> dsimp only
    · exact ⟨.error error, last, calls, fun _ _ => rfl⟩
    · exact ⟨.ok _, last, calls, fun _ _ => rfl⟩

theorem lower_frame (header : MethodHeader) (list : Listing) (index : ClassIndex)
    (options : Options) (scope : MethodScope) :
    ∃ result last calls, ∀ pool virtualCalls,
      header.lower list index options { scope, pool, virtualCalls } =
        (result, { scope := last, pool, virtualCalls := virtualCalls.union calls }) := by
  unfold lower
  rcases MethodType.parse header.descriptor with error | type
  · exact ⟨.error error, scope, .empty, fun _ _ => rfl⟩
  · obtain ⟨result, last, calls, same⟩ :=
      header.lowerTyped_frame type list index options scope
    simp only [same]
    exact ⟨_, last, calls, fun _ _ => rfl⟩

end MethodHeader

structure Visit where
  header : MethodHeader
  list : Listing
  unit : UnitState

namespace Visit

def lower (visit : Visit) (index : ClassIndex) (options : Options) :
    Except Error LoweredMethod × UnitState :=
  visit.header.lower visit.list index options visit.unit

def recorded (visit : Visit) (index : ClassIndex) (options : Options) : NameSet :=
  (visit.lower index options).2.virtualCalls

def Misreads (visit : Visit) : Prop :=
  visit.header.isStatic = true ∧
    ∃ instruction ∈ visit.list.instrs, instruction.readsReceiver = true

/-- Every class that an absorbed instruction mentions is mentioned by a remaining one. -/
def KeepsDependencies (visit : Visit) : Prop :=
  ∀ instruction ∈ visit.list.absorbed,
    instruction.dependencies ⊆ visit.list.fold.1.instrs.flatMap Instr.dependencies

instance (visit : Visit) : Decidable visit.KeepsDependencies :=
  inferInstanceAs (Decidable (∀ instruction ∈ visit.list.absorbed,
    instruction.dependencies ⊆ visit.list.fold.1.instrs.flatMap Instr.dependencies))

end Visit

namespace Program

/-- The methods that a run assembles. Only the constant pool passes from one to the next. -/
def visitsFrom : List (String × MethodDecl) → ConstantPool → List Visit
  | [], _ => []
  | (owner, method) :: rest, pool =>
    match method.assemble { pool } with
    | (.ok list, unit) => ⟨method.header owner, list, unit⟩ :: visitsFrom rest unit.pool
    | (.error _, unit) => visitsFrom rest unit.pool

def visits (program : Program) : List Visit := visitsFrom program.methodsWithCode {}

theorem visitsFrom_assembled {methods : List (String × MethodDecl)} {pool : ConstantPool}
    {visit : Visit} (member : visit ∈ visitsFrom methods pool) :
    ∃ method start, MethodDecl.assemble method start = (.ok visit.list, visit.unit) := by
  induction methods generalizing pool with
  | nil => simp [visitsFrom] at member
  | cons entry rest ih =>
      obtain ⟨owner, method⟩ := entry
      simp only [visitsFrom] at member
      split at member
      next list unit made =>
        rcases List.mem_cons.mp member with rfl | later
        · exact ⟨method, _, made⟩
        · exact ih later
      next => exact ih member

theorem lower_visits (owner : String) (method : MethodDecl) (index : ClassIndex)
    (options : Options) (unit : UnitState) {result : Except Error LoweredMethod}
    {after : UnitState} (lowered : method.lower owner index options unit = (result, after)) :
    ∃ new : List Visit,
      (∀ rest, visitsFrom ((owner, method) :: rest) unit.pool = new ++ visitsFrom rest after.pool) ∧
      (∀ visit ∈ new, (visit.lower index options).1 = result) ∧
      new.filterMap (fun visit => (visit.lower index options).1.toOption) = result.toOption.toList ∧
      (∀ name, name ∈ after.virtualCalls ↔
        name ∈ unit.virtualCalls ∨ ∃ visit ∈ new, name ∈ visit.recorded index options) ∧
      (unit.virtualCalls.Sorted → after.virtualCalls.Sorted) := by
  have assembled : method.assemble unit.beginMethod =
      ((method.assemble { pool := unit.pool }).1,
        { (method.assemble { pool := unit.pool }).2 with virtualCalls := unit.virtualCalls }) := rfl
  simp only [MethodDecl.lower, assembled] at lowered
  cases made : method.assemble { pool := unit.pool } with
  | mk built last =>
      rw [made] at lowered
      cases built with
      | error error =>
          simp only [Prod.mk.injEq] at lowered
          obtain ⟨rfl, rfl⟩ := lowered
          exact ⟨[], by simp [visitsFrom, made], by simp, by simp, by simp, id⟩
      | ok list =>
          obtain ⟨scope, pool, virtualCalls⟩ := last
          have fresh : virtualCalls = .empty := congrArg (fun given => given.2.virtualCalls) made.symm
          obtain ⟨outcome, finish, calls, same⟩ :=
            (method.header owner).lower_frame list index options scope
          simp only [same, Prod.mk.injEq] at lowered
          obtain ⟨rfl, rfl⟩ := lowered
          let visit : Visit := ⟨method.header owner, list, ⟨scope, pool, virtualCalls⟩⟩
          have visited : visit.lower index options = _ := same pool virtualCalls
          refine ⟨[visit], ?_, ?_, ?_, ?_, fun sorted => sorted.insertAll _⟩
          · simp [visitsFrom, made, visit]
          · simp [visited]
          · simp only [List.filterMap_cons, List.filterMap_nil, visited]
            cases outcome <;> rfl
          · simp [Visit.recorded, visited, fresh]

/-- The methods that a run lowers and the virtual calls that it records. -/
theorem lowerMethods_visits {index : ClassIndex} {options : Options}
    {methods : List (String × MethodDecl)} {unit : UnitState} {progress : Progress}
    (success : lowerMethods index options methods unit = .ok progress) :
    progress.lowered = (visitsFrom methods unit.pool).filterMap
        (fun visit => (visit.lower index options).1.toOption) ∧
      (∀ name, name ∈ progress.unit.virtualCalls ↔ name ∈ unit.virtualCalls ∨
        ∃ visit ∈ visitsFrom methods unit.pool, name ∈ visit.recorded index options) ∧
      (unit.virtualCalls.Sorted → progress.unit.virtualCalls.Sorted) := by
  induction methods generalizing unit progress with
  | nil =>
      simp only [lowerMethods, Except.ok.injEq] at success
      subst success
      simp [visitsFrom]
  | cons entry rest ih =>
      obtain ⟨owner, method⟩ := entry
      cases lowered : method.lower owner index options unit with
      | mk result after =>
          obtain ⟨new, visited, _, methods, calls, sorted⟩ :=
            lower_visits owner method index options unit lowered
          simp only [lowerMethods, lowered] at success
          have tail : ∃ others, lowerMethods index options rest after = .ok others ∧
              progress.lowered = result.toOption.toList ++ others.lowered ∧
              progress.unit = others.unit := by
            cases result with
            | ok first =>
                obtain ⟨others, made, rfl⟩ := (map_eq_ok_iff ..).mp success
                exact ⟨others, made, rfl, rfl⟩
            | error error =>
                dsimp only at success
                split at success
                next =>
                  obtain ⟨others, made, rfl⟩ := (map_eq_ok_iff ..).mp success
                  exact ⟨others, made, rfl, rfl⟩
                next => simp at success
          obtain ⟨others, made, list, unit⟩ := tail
          obtain ⟨later, laterCalls, laterSorted⟩ := ih made
          rw [visited, list, unit]
          refine ⟨?_, ?_, fun given => laterSorted (sorted given)⟩
          · rw [List.filterMap_append, methods, later]
          · intro name
            simp [laterCalls, calls, or_assoc, or_and_right, exists_or]

theorem lowerMethods_strict {index : ClassIndex} {options : Options}
    (strict : options.keepGoing = false) {methods : List (String × MethodDecl)} {unit : UnitState}
    {progress : Progress} (success : lowerMethods index options methods unit = .ok progress) :
    ∀ visit ∈ visitsFrom methods unit.pool,
      ∃ lowered, (visit.lower index options).1 = .ok lowered := by
  induction methods generalizing unit progress with
  | nil => simp [visitsFrom]
  | cons entry rest ih =>
      obtain ⟨owner, method⟩ := entry
      cases lowered : method.lower owner index options unit with
      | mk result after =>
          obtain ⟨new, visited, results, _⟩ :=
            lower_visits owner method index options unit lowered
          simp only [lowerMethods, lowered, strict] at success
          cases result with
          | error error => simp at success
          | ok first =>
              obtain ⟨others, made, _⟩ := (map_eq_ok_iff ..).mp success
              intro visit member
              rw [visited, List.mem_append] at member
              rcases member with here | later
              · exact ⟨first, results visit here⟩
              · exact ih made visit later

end Program

/-! The two lowerings of a visited method -/

theorem Listing.Elementary.dependencies_fold_iff {list : Listing} (elementary : list.Elementary) :
    NameSet.ofList (list.fold.1.instrs.flatMap Instr.dependencies) =
        NameSet.ofList (list.instrs.flatMap Instr.dependencies) ↔
      ∀ instruction ∈ list.absorbed,
        instruction.dependencies ⊆ list.fold.1.instrs.flatMap Instr.dependencies := by
  rw [NameSet.ofList_eq_iff]
  constructor
  · intro same instruction absorbed name mentioned
    rw [same]
    exact List.mem_flatMap.mpr ⟨instruction, elementary.absorbed_subset absorbed, mentioned⟩
  · intro kept name
    constructor
    · intro member
      obtain ⟨instruction, place, mentioned⟩ := List.mem_flatMap.mp member
      refine List.mem_flatMap.mpr ⟨instruction, ?_, mentioned⟩
      refine (elementary.mem_instrs_iff instruction).mpr (.inr ⟨place, ?_⟩)
      cases instruction <;> first | rfl | simp [Instr.dependencies] at mentioned
    · intro member
      obtain ⟨instruction, place, mentioned⟩ := List.mem_flatMap.mp member
      rcases (elementary.mem_instrs_iff instruction).mp place with absorbed | ⟨still, _⟩
      · exact kept instruction absorbed mentioned
      · exact List.mem_flatMap.mpr ⟨instruction, still, mentioned⟩

def LoweredMethod.summary (lowered : LoweredMethod) : String × NameSet × NameSet :=
  (lowered.symbol, lowered.dependencies, lowered.virtualCalls)

namespace Visit

def summary? (visit : Visit) (index : ClassIndex) (options : Options) :
    Option (String × NameSet × NameSet) :=
  (visit.lower index options).1.toOption.map LoweredMethod.summary

theorem isSome_summary?_iff (visit : Visit) (index : ClassIndex) (options : Options) :
    (visit.summary? index options).isSome = true ↔
      visit.header.Accepts visit.list index options visit.unit := by
  simp [summary?, Visit.lower, MethodHeader.Accepts, Option.isSome_iff_exists, toOption_eq_some_iff]

theorem not_misreads_of_accepts {visit : Visit} {index : ClassIndex} {options : Options}
    (plain : (visit.summary? index { options with reduce := false }).isSome = true) :
    ¬visit.Misreads := by
  rintro ⟨isStatic, instruction, member, reads⟩
  rw [isSome_summary?_iff] at plain
  have none := MethodHeader.not_readsReceiver_of_accepts plain isStatic member
  simp [reads] at none

section Assembled

variable {visit : Visit} (elementary : visit.list.Elementary)
  (checked : visit.list.AllNodes Instr.Checked)
include elementary checked

theorem outcome_fold (harmless : ¬visit.Misreads) (index : ClassIndex) (options : Options) :
    LoweredMethod.outcome (visit.lower index { options with reduce := true }) =
      LoweredMethod.outcome (visit.lower index { options with reduce := false }) := by
  apply MethodHeader.outcome_lower_fold elementary checked
  intro isStatic instruction member
  by_contra reads
  exact harmless ⟨isStatic, instruction, member, Bool.not_eq_false _ ▸ reads⟩

theorem summary?_fold_iff_dependencies (harmless : ¬visit.Misreads) {index : ClassIndex}
    {options : Options}
    (accepted : (visit.summary? index { options with reduce := true }).isSome = true) :
    visit.summary? index { options with reduce := true } =
        visit.summary? index { options with reduce := false } ↔ visit.KeepsDependencies := by
  obtain ⟨folded, success⟩ := (visit.isSome_summary?_iff index _).mp accepted
  have outcomes := congrArg Prod.fst (outcome_fold elementary checked harmless index options)
  simp only [LoweredMethod.outcome, Visit.lower, success, Except.map] at outcomes
  obtain ⟨plain, again, calls⟩ := (map_eq_ok_iff ..).mp outcomes.symm
  obtain ⟨type, _, lowers⟩ := MethodHeader.lower_eq_ok (Prod.ext success rfl)
  obtain ⟨other, _, plainLowers⟩ := MethodHeader.lower_eq_ok (Prod.ext again rfl)
  obtain rfl : type = other := Except.ok.inj (lowers.parsed.symm.trans plainLowers.parsed)
  have symbols : folded.symbol = plain.symbol := lowers.symbol.trans plainLowers.symbol.symm
  have dependencies : folded.dependencies = plain.dependencies ↔ visit.KeepsDependencies := by
    rw [lowers.dependencies, plainLowers.dependencies]
    exact elementary.dependencies_fold_iff
  simp [summary?, Visit.lower, success, again, LoweredMethod.summary, symbols, calls, dependencies]

theorem summary?_fold_iff {index : ClassIndex} {options : Options}
    (accepted : (visit.summary? index { options with reduce := true }).isSome = true) :
    visit.summary? index { options with reduce := true } =
        visit.summary? index { options with reduce := false } ↔
      ¬visit.Misreads ∧ visit.KeepsDependencies := by
  constructor
  · intro same
    have harmless := not_misreads_of_accepts (same ▸ accepted)
    exact ⟨harmless,
      (summary?_fold_iff_dependencies elementary checked harmless accepted).mp same⟩
  · rintro ⟨harmless, kept⟩
    exact (summary?_fold_iff_dependencies elementary checked harmless accepted).mpr kept

theorem isSome_summary?_fold {index : ClassIndex} {options : Options}
    (plain : (visit.summary? index { options with reduce := false }).isSome = true) :
    (visit.summary? index { options with reduce := true }).isSome = true := by
  rw [isSome_summary?_iff] at plain ⊢
  exact MethodHeader.accepts_fold_of_plain elementary checked plain

end Assembled

end Visit

theorem filterMap_eq_iff {α β : Type} {first second : α → Option β} {values : List α}
    (fewer : ∀ value ∈ values, (second value).isSome = true → (first value).isSome = true) :
    values.filterMap first = values.filterMap second ↔
      ∀ value ∈ values, (first value).isSome = true → first value = second value := by
  induction values with
  | nil => simp
  | cons value rest ih =>
      have later := ih fun other member => fewer other (by simp [member])
      have here := fewer value (by simp)
      have shorter : (rest.filterMap second).length ≤ (rest.filterMap first).length := by
        rw [List.length_filterMap_eq_countP, List.length_filterMap_eq_countP]
        exact List.countP_mono_left fun other member => fewer other (by simp [member])
      rw [List.forall_mem_cons, ← later]
      cases left : first value with
      | none =>
          have none : second value = none := by simpa [left] using here
          simp [left, none]
      | some given =>
          cases right : second value with
          | none =>
              simp only [List.filterMap_cons, left, right]
              constructor
              · intro same
                have lengths := congrArg List.length same
                simp only [List.length_cons] at lengths
                omega
              · rintro ⟨same, _⟩
                simp at same
          | some other => simp [left, right]

/-! Runs -/

structure LoweredUnit.SameManifest (unit other : LoweredUnit) : Prop where
  methods : unit.methods.map LoweredMethod.summary = other.methods.map LoweredMethod.summary
  dependencies : unit.dependencies = other.dependencies
  virtualCalls : unit.virtualCalls = other.virtualCalls

namespace Program

theorem assembled_of_mem_visits {program : Program} {visit : Visit}
    (member : visit ∈ program.visits) :
    visit.list.Elementary ∧ visit.list.AllNodes Instr.Checked := by
  obtain ⟨_, _, assembled⟩ := visitsFrom_assembled member
  exact ⟨MethodDecl.elementary_assemble assembled, MethodDecl.checked_assemble assembled⟩

theorem methods_of_lower {program : Program} {options : Options} {unit : LoweredUnit}
    (success : program.lower options = .ok unit) :
    unit.methods = program.visits.filterMap
      (fun visit => (visit.lower program.classIndex options).1.toOption) := by
  obtain ⟨progress, made, rfl⟩ := (map_eq_ok_iff ..).mp success
  exact (lowerMethods_visits made).1

theorem lower_eq_ok {program : Program} {options : Options} {unit : LoweredUnit}
    (success : program.lower options = .ok unit) :
    unit.methods.map LoweredMethod.summary =
        program.visits.filterMap (·.summary? program.classIndex options) ∧
      unit.dependencies =
        NameSet.ofList ((unit.methods.map LoweredMethod.summary).flatMap (·.2.1.names)) ∧
      (∀ name, name ∈ unit.virtualCalls ↔
        ∃ visit ∈ program.visits, name ∈ visit.recorded program.classIndex options) ∧
      unit.virtualCalls.Sorted := by
  have methods := methods_of_lower success
  obtain ⟨progress, made, rfl⟩ := (map_eq_ok_iff ..).mp success
  obtain ⟨_, calls, sorted⟩ := lowerMethods_visits made
  refine ⟨?_, ?_, ?_, sorted NameSet.sorted_empty⟩
  · rw [methods, List.map_filterMap]
    rfl
  · simp [List.flatMap_map, LoweredMethod.summary]
  · simpa [UnitState.empty, visits] using calls

theorem virtualCalls_fold_iff {program : Program} {options : Options} {folded plain : LoweredUnit}
    (reduced : program.lower { options with reduce := true } = .ok folded)
    (unreduced : program.lower { options with reduce := false } = .ok plain) :
    folded.virtualCalls = plain.virtualCalls ↔
      ∀ visit ∈ program.visits, visit.Misreads →
        (∀ name ∈ visit.recorded program.classIndex { options with reduce := true },
          name ∈ plain.virtualCalls) ∧
        ∀ name ∈ visit.recorded program.classIndex { options with reduce := false },
          name ∈ folded.virtualCalls := by
  obtain ⟨_, _, foldedCalls, foldedSorted⟩ := lower_eq_ok reduced
  obtain ⟨_, _, plainCalls, plainSorted⟩ := lower_eq_ok unreduced
  constructor
  · intro same visit member _
    exact ⟨fun name here => same ▸ (foldedCalls name).mpr ⟨visit, member, here⟩,
      fun name here => same ▸ (plainCalls name).mpr ⟨visit, member, here⟩⟩
  · intro known
    refine foldedSorted.ext plainSorted fun name => ?_
    have recorded (visit : Visit) (member : visit ∈ program.visits) (harmless : ¬visit.Misreads) :
        visit.recorded program.classIndex { options with reduce := true } =
          visit.recorded program.classIndex { options with reduce := false } := by
      obtain ⟨elementary, checked⟩ := assembled_of_mem_visits member
      have outcomes := Visit.outcome_fold elementary checked harmless program.classIndex options
      exact congrArg (fun outcome => outcome.2.virtualCalls) outcomes
    constructor
    · intro called
      obtain ⟨visit, member, here⟩ := (foldedCalls name).mp called
      by_cases misreads : visit.Misreads
      · exact (known visit member misreads).1 name here
      · exact (plainCalls name).mpr ⟨visit, member, recorded visit member misreads ▸ here⟩
    · intro called
      obtain ⟨visit, member, here⟩ := (plainCalls name).mp called
      by_cases misreads : visit.Misreads
      · exact (known visit member misreads).2 name here
      · exact (foldedCalls name).mpr ⟨visit, member, (recorded visit member misreads).symm ▸ here⟩

theorem entries_fold_iff {program : Program} {options : Options} {folded plain : LoweredUnit}
    (reduced : program.lower { options with reduce := true } = .ok folded)
    (unreduced : program.lower { options with reduce := false } = .ok plain) :
    folded.methods.map LoweredMethod.summary = plain.methods.map LoweredMethod.summary ↔
      ∀ visit ∈ program.visits,
        visit.header.Accepts visit.list program.classIndex { options with reduce := true }
          visit.unit → ¬visit.Misreads ∧ visit.KeepsDependencies := by
  rw [(lower_eq_ok reduced).1, (lower_eq_ok unreduced).1, filterMap_eq_iff]
  · apply forall₂_congr
    intro visit member
    obtain ⟨elementary, checked⟩ := assembled_of_mem_visits member
    rw [Visit.isSome_summary?_iff]
    apply forall_congr'
    intro accepted
    rw [← Visit.isSome_summary?_iff] at accepted
    exact Visit.summary?_fold_iff elementary checked accepted
  · intro visit member accepted
    obtain ⟨elementary, checked⟩ := assembled_of_mem_visits member
    exact Visit.isSome_summary?_fold elementary checked accepted

theorem accepts_of_strict {program : Program} {options : Options} {unit : LoweredUnit}
    (success : program.lower options = .ok unit) (strict : options.keepGoing = false)
    {visit : Visit} (member : visit ∈ program.visits) :
    visit.header.Accepts visit.list program.classIndex options visit.unit := by
  obtain ⟨progress, made, _⟩ := (map_eq_ok_iff ..).mp success
  exact lowerMethods_strict strict made visit member

end Program

/-- Folding keeps the manifest exactly if it accepts no further method and absorbs no last mention of
a class. A run that skips methods also keeps the virtual calls it met before a method failed, and
there the two runs can differ by static methods that read a field of the current object. If no method
is skipped, only the dependencies can differ. -/
theorem reduce_keeps_manifest_iff {program : Program} {options : Options}
    {folded plain : LoweredUnit}
    (reduced : program.lower { options with reduce := true } = .ok folded)
    (unreduced : program.lower { options with reduce := false } = .ok plain) :
    (folded.SameManifest plain ↔
      (∀ visit ∈ program.visits,
        visit.header.Accepts visit.list program.classIndex { options with reduce := true }
          visit.unit → ¬visit.Misreads ∧ visit.KeepsDependencies) ∧
      ∀ visit ∈ program.visits, visit.Misreads →
        (∀ name ∈ visit.recorded program.classIndex { options with reduce := true },
          name ∈ plain.virtualCalls) ∧
        ∀ name ∈ visit.recorded program.classIndex { options with reduce := false },
          name ∈ folded.virtualCalls) ∧
    (options.keepGoing = false →
      folded.virtualCalls = plain.virtualCalls ∧
        (folded.SameManifest plain ↔ ∀ visit ∈ program.visits, visit.KeepsDependencies)) := by
  have entries := Program.entries_fold_iff reduced unreduced
  have calls := Program.virtualCalls_fold_iff reduced unreduced
  have whole : folded.SameManifest plain ↔
      folded.methods.map LoweredMethod.summary = plain.methods.map LoweredMethod.summary ∧
        folded.virtualCalls = plain.virtualCalls := by
    constructor
    · intro same
      exact ⟨same.methods, same.virtualCalls⟩
    · rintro ⟨methods, virtualCalls⟩
      refine ⟨methods, ?_, virtualCalls⟩
      rw [(Program.lower_eq_ok reduced).2.1, (Program.lower_eq_ok unreduced).2.1, methods]
  refine ⟨by rw [whole, entries, calls], fun strict => ?_⟩
  have harmless (visit : Visit) (member : visit ∈ program.visits) : ¬visit.Misreads := by
    have accepts := Program.accepts_of_strict unreduced strict member
    exact Visit.not_misreads_of_accepts ((visit.isSome_summary?_iff _ _).mpr accepts)
  have sameCalls := calls.mpr fun visit member misreads => absurd misreads (harmless visit member)
  refine ⟨sameCalls, ?_⟩
  rw [whole, entries, and_iff_left sameCalls]
  constructor
  · intro kept visit member
    exact (kept visit member (Program.accepts_of_strict reduced strict member)).2
  · intro kept visit member _
    exact ⟨harmless visit member, kept visit member⟩

def Sample.reader : Program :=
  { classes :=
      [{ name := "t/Main", superName := none, fields := []
         methods :=
           [{ Sample.staticRead with
              isStatic := false
              code :=
                [.simple "aload_0" none, .field "getfield" "t/Main" "count" "I" false,
                 .simple "iconst_1" none, .simple "iadd" none, .simple "ireturn" none] }] }] }

theorem reduce_loses_dependency :
    ∃ folded plain, Sample.reader.lower { reduce := true } = .ok folded ∧
      Sample.reader.lower { reduce := false } = .ok plain ∧ ¬folded.SameManifest plain := by
  have accepted (reduce : Bool) : ∃ unit, Sample.reader.lower { reduce } = .ok unit := by
    have success : (Sample.reader.lower { reduce }).map (fun _ => ()) = .ok () := by
      cases reduce <;> decide +kernel
    obtain ⟨unit, lowered, _⟩ := (map_eq_ok_iff ..).mp success
    exact ⟨unit, lowered⟩
  obtain ⟨folded, reduced⟩ := accepted true
  obtain ⟨plain, unreduced⟩ := accepted false
  have lost : ¬∀ visit ∈ Sample.reader.visits, visit.KeepsDependencies := by decide +kernel
  obtain ⟨_, kept⟩ := (@reduce_keeps_manifest_iff Sample.reader {} folded plain reduced unreduced).2 rfl
  exact ⟨folded, plain, reduced, unreduced, fun same => lost (kept.mp same)⟩

end BytecodeToC
