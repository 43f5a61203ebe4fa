import BytecodeToC.Proofs.Manifest
import BytecodeToC.Proofs.Marks

/-!
The virtual calls of a unit. A call is recorded as soon as its instruction is lowered, and stays
recorded if a later instruction of the method fails. So the unit knows the calls of its functions and,
besides, those that stand in a skipped method before the instruction that failed. The dependencies of
a unit are those of its functions alone.
-/

namespace BytecodeToC

open Result

namespace Emission

open C Emit

def dispatchedOn? : Instr → Option String
  | .invoke call => (MethodType.parse call.descriptor).toOption.bind (virtualSymbol? call)
  | _ => none

def passed (context : MethodContext) : List Instr → BodyState → List Instr
  | [], _ => []
  | instruction :: rest, state =>
    match (instr context instruction).run.run state with
    | (.ok _, after) => instruction :: passed context rest after
    | (.error _, _) => []

theorem virtualSymbol_of_invoke {context : MethodContext} {call : Call} {items : List Item}
    {symbol : Option String} (made : invoke context call = .ok (items, symbol)) :
    dispatchedOn? (.invoke call) = symbol := by
  obtain ⟨type, parsed, made⟩ := (bind_eq_ok_iff ..).mp made
  split at made
  next => cases made
  next =>
    split at made
    next => cases made
    next =>
      obtain ⟨receiver, _, made⟩ := (bind_eq_ok_iff ..).mp made
      cases made
      simp [dispatchedOn?, parsed]

theorem virtualCalls_instr (context : MethodContext) {instruction : Instr}
    (other : ∀ call, instruction ≠ .invoke call) (state : BodyState) :
    ((instr context instruction).run.run state).2.virtualCalls = state.virtualCalls := by
  cases found : Listing.labelOf? instruction with
  | some id =>
      obtain rfl := Listing.labelOf?_eq_some found
      simp only [instr, run_bind, run_get]
      cases label state.scope state.openRegions id <;> rfl
  | none =>
      have jumps (target : Label) :
          Ensures (fun middle => middle.virtualCalls = state.virtualCalls) (fun _ : Jump => True)
            (fun _ => True) (jumpTo context.labels target) := by
        intro middle same
        refine ⟨?_, fun _ _ => trivial, fun _ _ => trivial⟩
        rw [run_jumpTo]
        split <;> exact same
      exact (ensures_instr found (fun _ => trivial) (fun _ _ _ => trivial)
        (fun call same => absurd same (other call)) jumps state rfl).1

theorem mem_virtualCalls_instr (context : MethodContext) (instruction : Instr) (state : BodyState)
    (name : String) :
    name ∈ ((instr context instruction).run.run state).2.virtualCalls ↔
      name ∈ state.virtualCalls ∨
        dispatchedOn? instruction = some name ∧
          ∃ items, ((instr context instruction).run.run state).1 = .ok items := by
  by_cases call : ∃ call, instruction = .invoke call
  · obtain ⟨call, rfl⟩ := call
    cases made : invoke context call with
    | error error =>
        have run : (instr context (.invoke call)).run.run state = (.error error, state) := by
          simp only [instr, made]
          rfl
        simp [run]
    | ok result =>
        obtain ⟨items, symbol⟩ := result
        have run : (instr context (.invoke call)).run.run state =
            (.ok items,
              { state with virtualCalls := state.virtualCalls.insertAll symbol.toList }) := by
          simp only [instr, made]
          rfl
        simp [run, virtualSymbol_of_invoke made, or_comm]
  · have other : ∀ call, instruction ≠ .invoke call := fun given same => call ⟨given, same⟩
    have silent : dispatchedOn? instruction = none := by
      cases instruction with
      | invoke given => exact absurd rfl (other given)
      | _ => rfl
    simp [virtualCalls_instr context other state, silent]

theorem state_instrs_cons (context : MethodContext) (annotate : Bool) (instruction : Instr)
    (rest : List Instr) (state : BodyState) :
    ((instrs context annotate (instruction :: rest)).run.run state).2 =
      match (instr context instruction).run.run state with
      | (.ok _, middle) => ((instrs context annotate rest).run.run middle).2
      | (.error _, middle) => middle := by
  simp only [instrs, run_bind]
  rcases (instr context instruction).run.run state with ⟨_ | _, middle⟩
  · rfl
  · dsimp only
    rcases (instrs context annotate rest).run.run middle with ⟨_ | _, last⟩ <;> rfl

theorem mem_virtualCalls_instrs (context : MethodContext) (annotate : Bool)
    (instructions : List Instr) (state : BodyState) (name : String) :
    name ∈ ((instrs context annotate instructions).run.run state).2.virtualCalls ↔
      name ∈ state.virtualCalls ∨
        ∃ instruction ∈ passed context instructions state, dispatchedOn? instruction = some name := by
  induction instructions generalizing state with
  | nil =>
      rw [show ((instrs context annotate []).run.run state).2 = state from rfl]
      simp [passed]
  | cons instruction rest ih =>
      have first := mem_virtualCalls_instr context instruction state name
      rw [state_instrs_cons, passed]
      cases here : (instr context instruction).run.run state with
      | mk result middle =>
          rw [here] at first
          cases result with
          | error error => simpa using first
          | ok items =>
              dsimp only
              rw [ih middle, first]
              simp [or_assoc]

theorem virtualCalls_body (context : MethodContext) (annotate : Bool) (state : BodyState) :
    ((body context annotate).run.run state).2.virtualCalls =
      ((instrs context annotate context.list.instrs).run.run state).2.virtualCalls := by
  simp only [body, run_bind, run_get]
  cases (instrs context annotate context.list.instrs).run.run state with
  | mk result after =>
      cases result with
      | error error => rfl
      | ok items => cases opened : after.openRegions <;> simp only [opened] <;> rfl

end Emission

namespace Visit

/-- The instructions of a visited method that are lowered before the first one that fails. A method
whose descriptor or labels are refused comes to none of them. -/
def passed (visit : Visit) (index : ClassIndex) (options : Options) : List Instr :=
  match MethodType.parse visit.header.descriptor, visit.unit.scope.markLabels (visit.list.under options) with
  | .ok type, (.ok _, scope) =>
    let code := visit.list.under options
    let locals := LocalTable.ofType code visit.header.isStatic type
    Emission.passed (visit.header.context code locals index) code.instrs { scope }
  | _, _ => []

theorem virtualCalls_lowerBody (header : MethodHeader) (list : Listing) (locals : List LocalVar)
    (index : ClassIndex) (annotate : Bool) (unit : UnitState) :
    (header.lowerBody list locals index annotate unit).2.virtualCalls =
      unit.virtualCalls.union ((Emission.body (header.context list locals index) annotate).run.run
        { scope := unit.scope }).2.virtualCalls :=
  rfl

theorem virtualCalls_lowerTyped (header : MethodHeader) (type : MethodType) (list : Listing)
    (index : ClassIndex) (options : Options) (unit : UnitState) :
    (header.lowerTyped type list index options unit).2.virtualCalls =
      match unit.scope.markLabels (list.under options) with
      | (.error _, _) => unit.virtualCalls
      | (.ok _, scope) =>
        (header.lowerBody (list.under options)
          (LocalTable.ofType (list.under options) header.isStatic type) index options.annotate
          { unit with scope }).2.virtualCalls := by
  rw [MethodHeader.lowerTyped_eq]
  rcases unit.scope.markLabels (list.under options) with ⟨_ | _, scope⟩
  · rfl
  · dsimp only
    generalize header.lowerBody (list.under options) _ index options.annotate _ = lowered
    rcases lowered with ⟨_ | _, after⟩ <;> rfl

theorem mem_recorded_iff {visit : Visit} (fresh : visit.unit.virtualCalls = .empty)
    (index : ClassIndex) (options : Options) (name : String) :
    name ∈ visit.recorded index options ↔
      ∃ instruction ∈ visit.passed index options,
        Emission.dispatchedOn? instruction = some name := by
  unfold recorded Visit.lower MethodHeader.lower passed
  cases MethodType.parse visit.header.descriptor with
  | error error => simp [fresh]
  | ok type =>
      dsimp only
      rw [virtualCalls_lowerTyped]
      rcases visit.unit.scope.markLabels (visit.list.under options) with ⟨_ | _, scope⟩
      · simp [fresh]
      · dsimp only
        rw [virtualCalls_lowerBody, NameSet.mem_union, fresh, Emission.virtualCalls_body,
          Emission.mem_virtualCalls_instrs]
        simp [MethodHeader.context]

theorem mem_recorded_of_ok {visit : Visit} (fresh : visit.unit.virtualCalls = .empty)
    {index : ClassIndex} {options : Options} {lowered : LoweredMethod}
    (success : (visit.lower index options).1 = .ok lowered) (name : String) :
    name ∈ visit.recorded index options ↔ name ∈ lowered.virtualCalls := by
  obtain ⟨type, scope, lowers⟩ := MethodHeader.lower_eq_ok (Prod.ext success rfl)
  obtain ⟨state, _, calls, after⟩ := MethodHeader.lowerBody_eq_ok lowers.body
  have recorded : visit.recorded index options = visit.unit.virtualCalls.union state.virtualCalls :=
    congrArg UnitState.virtualCalls after
  simp [recorded, fresh, calls]

end Visit

def LoweredUnit.unionOf (unit : LoweredUnit) (names : LoweredMethod → NameSet) : NameSet :=
  .ofList (unit.methods.flatMap fun method => (names method).names)

@[simp] theorem LoweredUnit.mem_unionOf {unit : LoweredUnit} {names : LoweredMethod → NameSet}
    {name : String} : name ∈ unit.unionOf names ↔ ∃ method ∈ unit.methods, name ∈ names method := by
  rw [unionOf, NameSet.mem_ofList, List.mem_flatMap]
  rfl

namespace Program

theorem visitsFrom_fresh {methods : List (String × MethodDecl)} {pool : ConstantPool}
    {visit : Visit} (member : visit ∈ visitsFrom methods pool) :
    visit.unit.virtualCalls = .empty := by
  induction methods generalizing pool with
  | nil => simp [visitsFrom] at member
  | cons entry rest ih =>
      obtain ⟨owner, method⟩ := entry
      simp only [visitsFrom] at member
      split at member
      next list unit made =>
        rcases List.mem_cons.mp member with rfl | later
        · exact congrArg (fun assembled => assembled.2.virtualCalls) made.symm
        · exact ih later
      next => exact ih member

theorem lowerMethods_skipped {index : ClassIndex} {options : Options}
    {methods : List (String × MethodDecl)} {unit : UnitState} {progress : Progress}
    (success : lowerMethods index options methods unit = .ok progress) {visit : Visit}
    (member : visit ∈ visitsFrom methods unit.pool) {error : Error}
    (failure : (visit.lower index options).1 = .error error) :
    ∃ note ∈ progress.skipped, note.error = error := by
  induction methods generalizing unit progress with
  | nil => simp [visitsFrom] at member
  | cons entry rest ih =>
      obtain ⟨owner, method⟩ := entry
      cases lowered : method.lower owner index options unit with
      | mk result after =>
          obtain ⟨new, visited, results, _⟩ :=
            lower_visits owner method index options unit lowered
          rw [visited, List.mem_append] at member
          simp only [lowerMethods, lowered] at success
          cases result with
          | ok first =>
              obtain ⟨others, made, rfl⟩ := (map_eq_ok_iff ..).mp success
              rcases member with here | later
              · simp [results visit here] at failure
              · obtain ⟨note, known, same⟩ := ih made later
                exact ⟨note, known, same⟩
          | error cause =>
              dsimp only at success
              split at success
              next =>
                obtain ⟨others, made, rfl⟩ := (map_eq_ok_iff ..).mp success
                rcases member with here | later
                · have same : cause = error := Except.error.inj ((results visit here).symm.trans failure)
                  exact ⟨_, List.mem_cons_self, same⟩
                · obtain ⟨note, known, same⟩ := ih made later
                  exact ⟨note, List.mem_cons_of_mem _ known, same⟩
              next => simp at success

section

variable {program : Program} {options : Options} {unit : LoweredUnit}
  (success : program.lower options = .ok unit)
include success

theorem mem_methods_iff (method : LoweredMethod) :
    method ∈ unit.methods ↔
      ∃ visit ∈ program.visits, (visit.lower program.classIndex options).1 = .ok method := by
  obtain ⟨progress, made, rfl⟩ := (map_eq_ok_iff ..).mp success
  simp [(lowerMethods_visits made).1, visits, UnitState.empty, toOption_eq_some_iff]

theorem skipped_of_failure {visit : Visit} (member : visit ∈ program.visits) {error : Error}
    (failure : (visit.lower program.classIndex options).1 = .error error) :
    ∃ note ∈ unit.skipped, note.error = error := by
  obtain ⟨progress, made, rfl⟩ := (map_eq_ok_iff ..).mp success
  exact lowerMethods_skipped made member failure

theorem virtualCalls_eq_unionOf_iff :
    unit.virtualCalls = unit.unionOf (·.virtualCalls) ↔
      ∀ visit ∈ program.visits, ∀ error, (visit.lower program.classIndex options).1 = .error error →
        ∀ instruction ∈ visit.passed program.classIndex options, ∀ name,
          Emission.dispatchedOn? instruction = some name → name ∈ unit.unionOf (·.virtualCalls) := by
  obtain ⟨_, _, calls, sorted⟩ := lower_eq_ok success
  constructor
  · intro same visit member error _ instruction passed name dispatches
    rw [← same, calls]
    refine ⟨visit, member, ?_⟩
    exact (Visit.mem_recorded_iff (visitsFrom_fresh member) _ _ _).mpr ⟨instruction, passed, dispatches⟩
  · intro known
    refine sorted.ext (NameSet.sorted_ofList _) fun name => ?_
    rw [calls]
    constructor
    · rintro ⟨visit, member, recorded⟩
      have fresh := visitsFrom_fresh member
      cases outcome : (visit.lower program.classIndex options).1 with
      | ok method =>
          rw [Visit.mem_recorded_of_ok fresh outcome] at recorded
          exact LoweredUnit.mem_unionOf.mpr
            ⟨method, (mem_methods_iff success method).mpr ⟨visit, member, outcome⟩, recorded⟩
      | error error =>
          obtain ⟨instruction, passed, dispatches⟩ := (Visit.mem_recorded_iff fresh _ _ _).mp recorded
          exact known visit member error outcome instruction passed name dispatches
    · intro called
      obtain ⟨method, present, called⟩ := LoweredUnit.mem_unionOf.mp called
      obtain ⟨visit, member, outcome⟩ := (mem_methods_iff success method).mp present
      exact ⟨visit, member, (Visit.mem_recorded_of_ok (visitsFrom_fresh member) outcome name).mpr called⟩

end

end Program

/-- The dependencies of a unit are those of its functions. Its virtual calls are those of its functions
exactly if every call that a skipped method makes before the instruction that failed is also made by a
function, and so always if nothing is skipped. -/
theorem manifest_describes_functions_iff {program : Program} {options : Options}
    {unit : LoweredUnit} (success : program.lower options = .ok unit) :
    unit.dependencies = unit.unionOf (·.dependencies) ∧
    (unit.virtualCalls = unit.unionOf (·.virtualCalls) ↔
      ∀ visit ∈ program.visits, ∀ error, (visit.lower program.classIndex options).1 = .error error →
        ∀ instruction ∈ visit.passed program.classIndex options, ∀ name,
          Emission.dispatchedOn? instruction = some name → name ∈ unit.unionOf (·.virtualCalls)) ∧
    (options.keepGoing = false ∨ unit.skipped = [] →
      unit.virtualCalls = unit.unionOf (·.virtualCalls)) := by
  have calls := Program.virtualCalls_eq_unionOf_iff success
  refine ⟨?_, calls, ?_⟩
  · obtain ⟨progress, made, rfl⟩ := (map_eq_ok_iff ..).mp success
    rfl
  · intro complete
    refine calls.mpr fun visit member error failure => ?_
    rcases complete with strict | none
    · obtain ⟨lowered, accepted⟩ := Program.accepts_of_strict success strict member
      exact absurd (failure.symm.trans accepted) (by simp)
    · obtain ⟨note, known, _⟩ := Program.skipped_of_failure success member failure
      simp [none] at known

def Sample.abandoned : Program :=
  { classes :=
      [{ name := "t/Main", superName := none, fields := []
         methods :=
           [{ name := "bad", descriptor := "()V", isStatic := true, maxStack := 1, maxLocals := 0
              code :=
                [.simple "aconst_null" none,
                 .invoke "invokevirtual" "java/lang/Object" "hashCode" "()I" [] none false true,
                 .jump "jsr" 1 none, .label 1]
              tryCatch := [] },
            { name := "good", descriptor := "()V", isStatic := true, maxStack := 0, maxLocals := 0
              code := [.simple "return" none], tryCatch := [] }] }] }

theorem skipped_method_leaves_call :
    ∃ unit, Sample.abandoned.lower { keepGoing := true } = .ok unit ∧
      unit.virtualCalls ≠ unit.unionOf (·.virtualCalls) := by
  have made : (Sample.abandoned.lower { keepGoing := true }).map (·.unionOf (·.virtualCalls)) =
      .ok .empty := by
    decide +kernel
  obtain ⟨unit, success, none⟩ := (map_eq_ok_iff ..).mp made
  refine ⟨unit, success, fun same => ?_⟩
  have known := (manifest_describes_functions_iff success).2.1.mp same
  have stray : ∃ visit ∈ Sample.abandoned.visits,
      (visit.lower Sample.abandoned.classIndex { keepGoing := true }).1.toOption = Option.none ∧
        ∃ instruction ∈ visit.passed Sample.abandoned.classIndex { keepGoing := true },
          Emission.dispatchedOn? instruction = some "java_lang_Object_hashCode___R_int" := by
    decide +kernel
  obtain ⟨visit, member, refused, instruction, passed, dispatches⟩ := stray
  cases failure : (visit.lower Sample.abandoned.classIndex { keepGoing := true }).1 with
  | ok method => simp [failure] at refused
  | error error =>
      have called := known visit member error failure instruction passed _ dispatches
      simp [none] at called

end BytecodeToC
