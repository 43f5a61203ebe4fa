import BytecodeToC.Proofs.JumpDepths
import BytecodeToC.Proofs.Manifest

/-!
Methods of one unit do not influence each other. Of the unit in which a method is lowered only the
constant pool matters: neither the labels and regions of earlier methods nor their remembered depths
nor the calls recorded for them, whether those methods were lowered or failed.
-/

namespace BytecodeToC

/-- The outcome of a method and what it adds to its unit depend on the constant pool only. -/
theorem MethodDecl.lower_frame (method : MethodDecl) (owner : String) (index : ClassIndex)
    (options : Options) (pool : ConstantPool) :
    ∃ result last grown calls, ∀ scope virtualCalls,
      method.lower owner index options { scope, pool, virtualCalls } =
        (result, { scope := last, pool := grown, virtualCalls := virtualCalls.union calls }) := by
  -- A method begins with an empty scope, so assembling it depends on the pool only.
  let assembled := method.assemble { pool }
  have same (scope : MethodScope) (virtualCalls : NameSet) :
      method.assemble (UnitState.beginMethod { scope, pool, virtualCalls }) =
        (assembled.1, { assembled.2 with virtualCalls }) := rfl
  simp only [MethodDecl.lower, same]
  rcases assembled with ⟨error | list, ⟨last, grown, _⟩⟩
  · exact ⟨_, last, grown, .empty, fun _ _ => rfl⟩
  · obtain ⟨result, finish, calls, lowers⟩ :=
      (method.header owner).lower_frame list index options last
    exact ⟨result, finish, grown, calls, fun _ virtualCalls => lowers grown virtualCalls⟩

structure SameOutcome {α : Type} (first second : Except Error α × UnitState) : Prop where
  result : first.1 = second.1
  scope : first.2.scope = second.2.scope
  pool : first.2.pool = second.2.pool

theorem MethodDecl.sameOutcome_lower (method : MethodDecl) (owner : String) (index : ClassIndex)
    (options : Options) {first second : UnitState} (pools : first.pool = second.pool) :
    SameOutcome (method.lower owner index options first)
      (method.lower owner index options second) := by
  obtain ⟨scope, pool, virtualCalls⟩ := first
  obtain ⟨others, _, calls⟩ := second
  obtain rfl : pool = _ := pools
  obtain ⟨result, last, grown, added, frame⟩ := method.lower_frame owner index options pool
  rw [frame scope virtualCalls, frame others calls]
  exact ⟨rfl, rfl, rfl⟩

namespace Program

def Progress.outcome (progress : Progress) :
    List LoweredMethod × List SkippedMethod × ConstantPool :=
  (progress.lowered, progress.skipped, progress.unit.pool)

theorem outcome_map_eq {change : Progress → Progress}
    (grow : List LoweredMethod × List SkippedMethod × ConstantPool →
      List LoweredMethod × List SkippedMethod × ConstantPool)
    (grown : ∀ progress, (change progress).outcome = grow progress.outcome)
    {one other : Except Error Progress}
    (same : one.map Progress.outcome = other.map Progress.outcome) :
    (one.map change).map Progress.outcome = (other.map change).map Progress.outcome := by
  have moves (run : Except Error Progress) :
      (run.map change).map Progress.outcome = (run.map Progress.outcome).map grow := by
    cases run <;> simp [Except.map, grown]
  rw [moves, moves, same]

theorem outcome_lowerMethods (index : ClassIndex) (options : Options)
    (methods : List (String × MethodDecl)) {first second : UnitState}
    (pools : first.pool = second.pool) :
    (lowerMethods index options methods first).map Progress.outcome =
      (lowerMethods index options methods second).map Progress.outcome := by
  induction methods generalizing first second with
  | nil => simp [lowerMethods, Except.map, Progress.outcome, pools]
  | cons entry rest ih =>
      obtain ⟨owner, method⟩ := entry
      have same := method.sameOutcome_lower owner index options pools
      have others := ih same.pool
      simp only [lowerMethods]
      cases here : method.lower owner index options first with
      | mk result after =>
          cases there : method.lower owner index options second with
          | mk again left =>
              rw [here, there] at same others
              obtain rfl : result = again := same.result
              cases result with
              | ok lowered =>
                  exact outcome_map_eq (fun outcome => (lowered :: outcome.1, outcome.2))
                    (fun _ => rfl) others
              | error error =>
                  dsimp only
                  split
                  · exact outcome_map_eq (fun outcome => (outcome.1, _ :: outcome.2.1, outcome.2.2))
                      (fun _ => rfl) others
                  · rfl

end Program

/-- Of the unit only the constant pool matters to a method, and so to a run over several methods. -/
theorem lowering_depends_on_pool_only (index : ClassIndex) (options : Options)
    (first second : UnitState) (pools : first.pool = second.pool) :
    (∀ (method : MethodDecl) (owner : String),
      SameOutcome (method.lower owner index options first)
        (method.lower owner index options second)) ∧
    ∀ methods : List (String × MethodDecl),
      (Program.lowerMethods index options methods first).map Program.Progress.outcome =
        (Program.lowerMethods index options methods second).map Program.Progress.outcome := by
  constructor
  · intro method owner
    exact method.sameOutcome_lower owner index options pools
  · intro methods
    exact Program.outcome_lowerMethods index options methods pools

/-- A method that fails leaves its labels and regions behind, and the next method is lowered as in a
new unit. -/
theorem lowering_depends_on_pool_only_sample :
    let failed := Sample.crossing.lower "t/Main" .empty {} .empty
    (∃ error, failed.1 = .error error) ∧ failed.2.scope ≠ .empty ∧
      SameOutcome (Sample.retrying.lower "t/Main" .empty {} failed.2)
        (Sample.retrying.lower "t/Main" .empty {} .empty) := by
  intro failed
  have refused : failed.1.toOption = none := by decide +kernel
  refine ⟨?_, by decide +kernel, ?_⟩
  · cases result : failed.1 with
    | error error => exact ⟨error, rfl⟩
    | ok lowered => simp [result, Except.toOption] at refused
  · have pools : failed.2.pool = UnitState.empty.pool := by decide +kernel
    exact (lowering_depends_on_pool_only .empty {} failed.2 .empty pools).1 Sample.retrying "t/Main"

end BytecodeToC
