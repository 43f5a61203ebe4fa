import BytecodeToC.Proofs.MethodLowering
import Mathlib.Data.List.Forall2

/-!
Runs that skip methods and runs that give up. Both lower the same methods in the same states until one
fails. So a run that gives up returns what a run that skips would return if nothing was skipped, and
otherwise the error of the first method that was.
-/

namespace BytecodeToC

open Result

namespace Program

inductive Report where
  | lowered (method : LoweredMethod)
  | skipped (method : SkippedMethod)

def Report.lowered? : Report → Option LoweredMethod
  | lowered method => some method
  | skipped _ => none

def Report.skipped? : Report → Option SkippedMethod
  | lowered _ => none
  | skipped method => some method

def reportOn (owner : String) (method : MethodDecl) : Except Error LoweredMethod → Report
  | .ok lowered => .lowered lowered
  | .error error => .skipped { method := (method.header owner).displayName, error }

def reportsFrom (index : ClassIndex) (options : Options) :
    List (String × MethodDecl) → UnitState → List Report
  | [], _ => []
  | (owner, method) :: rest, unit =>
    reportOn owner method (method.lower owner index options unit).1 ::
      reportsFrom index options rest (method.lower owner index options unit).2

def unitAfter (index : ClassIndex) (options : Options) :
    List (String × MethodDecl) → UnitState → UnitState
  | [], unit => unit
  | (owner, method) :: rest, unit =>
    unitAfter index options rest (method.lower owner index options unit).2

def progressOf (index : ClassIndex) (options : Options) (methods : List (String × MethodDecl))
    (unit : UnitState) : Progress :=
  { lowered := (reportsFrom index options methods unit).filterMap Report.lowered?
    skipped := (reportsFrom index options methods unit).filterMap Report.skipped?
    unit := unitAfter index options methods unit }

theorem symbol_of_lower {method : MethodDecl} {owner : String} {index : ClassIndex}
    {options : Options} {unit after : UnitState} {lowered : LoweredMethod}
    (success : method.lower owner index options unit = (.ok lowered, after)) :
    (method.header owner).symbol = .ok lowered.symbol := by
  obtain ⟨list, assembled, _, lowering⟩ := MethodDecl.lower_eq_ok success
  obtain ⟨type, scope, lowers⟩ := MethodHeader.lower_eq_ok lowering
  exact lowers.header_symbol

section

variable (index : ClassIndex) (options : Options)

variable {index options}

theorem progressOf_cons_ok {owner : String} {method : MethodDecl} {unit after : UnitState}
    {function : LoweredMethod}
    (success : method.lower owner index options unit = (.ok function, after))
    (rest : List (String × MethodDecl)) :
    progressOf index options ((owner, method) :: rest) unit =
      { progressOf index options rest after with
        lowered := function :: (progressOf index options rest after).lowered } := by
  simp only [progressOf, reportsFrom, unitAfter, success]
  rfl

theorem progressOf_cons_error {owner : String} {method : MethodDecl} {unit after : UnitState}
    {error : Error} (failure : method.lower owner index options unit = (.error error, after))
    (rest : List (String × MethodDecl)) :
    progressOf index options ((owner, method) :: rest) unit =
      { progressOf index options rest after with
        skipped := { method := (method.header owner).displayName, error } ::
          (progressOf index options rest after).skipped } := by
  simp only [progressOf, reportsFrom, unitAfter, failure]
  rfl

theorem lowerMethods_keepGoing (keepsGoing : options.keepGoing = true)
    (methods : List (String × MethodDecl)) (unit : UnitState) :
    lowerMethods index options methods unit = .ok (progressOf index options methods unit) := by
  induction methods generalizing unit with
  | nil => rfl
  | cons entry rest ih =>
      obtain ⟨owner, method⟩ := entry
      cases here : method.lower owner index options unit with
      | mk result after =>
          cases result with
          | ok function => simp [lowerMethods, here, ih, Except.map, progressOf_cons_ok here]
          | error error =>
              simp [lowerMethods, here, ih, Except.map, keepsGoing, progressOf_cons_error here]

theorem lowerMethods_givingUp (givesUp : options.keepGoing = false)
    (methods : List (String × MethodDecl)) (unit : UnitState) :
    lowerMethods index options methods unit =
      match (progressOf index options methods unit).skipped with
      | [] => .ok (progressOf index options methods unit)
      | first :: _ => .error first.error := by
  induction methods generalizing unit with
  | nil => rfl
  | cons entry rest ih =>
      obtain ⟨owner, method⟩ := entry
      cases here : method.lower owner index options unit with
      | mk result after =>
          cases result with
          | ok function =>
              -- The first method is not skipped, so the first one skipped is among the rest.
              rw [progressOf_cons_ok here]
              simp only [lowerMethods, here, ih]
              cases skipped : (progressOf index options rest after).skipped with
              | nil => simp [Except.map, skipped]
              | cons first others => rfl
          | error error =>
              rw [progressOf_cons_error here]
              simp [lowerMethods, here, givesUp]

end

def Progress.result (progress : Progress) : LoweredUnit :=
  { methods := progress.lowered
    dependencies := NameSet.ofList (progress.lowered.flatMap (·.dependencies.names))
    virtualCalls := progress.unit.virtualCalls
    pool := progress.unit.pool
    skipped := progress.skipped }

theorem lower_eq (program : Program) (options : Options) :
    program.lower options =
      (lowerMethods program.classIndex options program.methodsWithCode .empty).map Progress.result :=
  rfl

end Program

end BytecodeToC
