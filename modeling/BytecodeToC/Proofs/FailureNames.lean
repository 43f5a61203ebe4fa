import BytecodeToC.Proofs.KeepGoing
import BytecodeToC.Proofs.Refusal

/-!
The names in errors. A failure is reported under the symbol of its method, or under its display name
if the descriptor spells no symbol. The one failure without a name is that of a method whose records
are all accepted and whose descriptor is then found to be malformed.
-/

namespace BytecodeToC

open Result

namespace Error

def NamesOnce (name : String) (error : Error) : Prop :=
  ∃ cause, error = .inMethod name cause ∧ ∀ method inner, cause ≠ .inMethod method inner

theorem IsRefusal.namesOnce_within {error : Error} (refusal : error.IsRefusal) (name : String) :
    (error.within name).NamesOnce name := by
  cases error with
  | unsupported cause => exact ⟨.unsupported cause, rfl, by simp⟩
  | unbalanced cause => exact ⟨.unbalanced cause, rfl, by simp⟩
  | _ => exact absurd refusal (by simp)

theorem not_namesOnce_unsupported (name : String) (cause : Unsupported) :
    ¬(Error.unsupported cause).NamesOnce name := by
  rintro ⟨inner, same, _⟩
  simp at same

end Error

namespace MethodDecl

/-- Assembly accepts every record, and the descriptor is malformed. -/
def OnlyDescriptorMalformed (method : MethodDecl) : Prop :=
  MethodType.ofDescriptor? method.descriptor = none ∧ method.recordsRead = method.code

instance (method : MethodDecl) : Decidable method.OnlyDescriptorMalformed :=
  inferInstanceAs (Decidable (_ ∧ _))

theorem recordsRead_of_assemble {method : MethodDecl} {unit after : UnitState} {list : Listing}
    (assembled : method.assemble unit = (.ok list, after)) : method.recordsRead = method.code := by
  have read := (method.assemble_recordsRead unit).2
  rw [assembled] at read
  exact read.mp rfl

theorem recordsRead_of_refused {method : MethodDecl} {unit after : UnitState} {error : Error}
    (refused : method.assemble unit = (.error error, after)) : method.recordsRead ≠ method.code := by
  have read := (method.assemble_recordsRead unit).2
  rw [refused] at read
  intro whole
  simpa [Except.toBool] using read.mpr whole

theorem errorName_of_parse {header : MethodHeader} {type : MethodType}
    (parsed : MethodType.parse header.descriptor = .ok type) :
    errorName header = Symbol.ofMethod header.owner header.name type := by
  simp [errorName, MethodHeader.symbol, Symbol.ofDescriptor, parsed, Except.map]

variable {method : MethodDecl} {owner : String} {index : ClassIndex} {options : Options}
  {unit after : UnitState} {error : Error}

theorem error_of_lower {list : Listing} (elementary : list.Elementary)
    (failure : (method.header owner).lower list index options unit = (.error error, after)) :
    if MethodType.ofDescriptor? method.descriptor = none then
      error = .unsupported (.methodDescriptor method.descriptor)
    else error.NamesOnce (errorName (method.header owner)) := by
  let header := method.header owner
  have descriptor : header.descriptor = method.descriptor := rfl
  cases found : MethodType.ofDescriptor? method.descriptor with
  | none =>
      have refused : MethodType.parse header.descriptor =
          .error (.unsupported (.methodDescriptor method.descriptor)) := by
        simp [MethodType.parse, descriptor, found]
      simp only [MethodHeader.lower, refused, Prod.mk.injEq, Except.error.injEq, header] at failure
      simp [failure.1]
  | some type =>
      have parsed : MethodType.parse header.descriptor = .ok type := by
        simp [MethodType.parse, descriptor, found]
      have kind := header.fails_lowerTyped type elementary index options unit
      simp only [MethodHeader.lower, parsed, header] at failure
      cases lowered : (header.lowerTyped type list index options unit).1 with
      | ok method => simp [header, lowered] at failure
      | error cause =>
          have refusal := kind cause lowered
          simp only [header, lowered, mapError_error, Prod.mk.injEq, Except.error.injEq] at failure
          rw [if_neg (by simp), errorName_of_parse parsed, ← failure.1]
          exact refusal.namesOnce_within _

theorem namesOnce_iff (failure : method.lower owner index options unit = (.error error, after)) :
    (error.NamesOnce (errorName (method.header owner)) ↔ ¬method.OnlyDescriptorMalformed) ∧
      (method.OnlyDescriptorMalformed →
        error = .unsupported (.methodDescriptor method.descriptor)) := by
  unfold MethodDecl.lower at failure
  split at failure
  next cause last refused =>
    simp only [Prod.mk.injEq, Except.error.injEq] at failure
    obtain ⟨rfl, rfl⟩ := failure
    have kind := (method.fails_assemble unit.beginMethod).mono fun _ => Error.IsUnsupported.isRefusal
    rw [refused, fails_error] at kind
    have partly : ¬method.OnlyDescriptorMalformed :=
      fun whole => recordsRead_of_refused refused whole.2
    have named := kind.namesOnce_within (errorName (method.header owner))
    exact ⟨iff_of_true named partly, fun whole => absurd whole partly⟩
  next list last assembled =>
    have outcome := error_of_lower (elementary_assemble assembled) failure
    have whole : method.OnlyDescriptorMalformed ↔ MethodType.ofDescriptor? method.descriptor = none :=
      and_iff_left (recordsRead_of_assemble assembled)
    rw [whole]
    split at outcome
    next malformed =>
      subst outcome
      exact ⟨iff_of_false (Error.not_namesOnce_unsupported _ _) (not_not_intro malformed), fun _ => rfl⟩
    next known => exact ⟨iff_of_true outcome known, fun malformed => absurd malformed known⟩

end MethodDecl

namespace Program

def FailsAt (program : Program) (options : Options) (owner : String) (method : MethodDecl)
    (error : Error) : Prop :=
  ∃ before rest, program.methodsWithCode = before ++ (owner, method) :: rest ∧
    (method.lower owner program.classIndex options
      (unitAfter program.classIndex options before .empty)).1 = .error error

theorem mem_skipped_progressOf {index : ClassIndex} {options : Options}
    {methods : List (String × MethodDecl)} {unit : UnitState} {note : SkippedMethod}
    (member : note ∈ (progressOf index options methods unit).skipped) :
    ∃ before owner method rest, methods = before ++ (owner, method) :: rest ∧
      (method.lower owner index options (unitAfter index options before unit)).1 = .error note.error ∧
      note.method = (method.header owner).displayName := by
  induction methods generalizing unit with
  | nil => simp [progressOf, reportsFrom] at member
  | cons entry rest ih =>
      obtain ⟨owner, method⟩ := entry
      cases here : method.lower owner index options unit with
      | mk result after =>
          have later (found : note ∈ (progressOf index options rest after).skipped) :
              ∃ before name other tail, (owner, method) :: rest = before ++ (name, other) :: tail ∧
                (other.lower name index options (unitAfter index options before unit)).1 =
                  .error note.error ∧
                note.method = (other.header name).displayName := by
            obtain ⟨before, name, other, tail, split, failure, named⟩ := ih found
            refine ⟨(owner, method) :: before, name, other, tail, by simp [split], ?_, named⟩
            simpa [unitAfter, here] using failure
          cases result with
          | ok function =>
              rw [progressOf_cons_ok here] at member
              exact later member
          | error error =>
              rw [progressOf_cons_error here] at member
              rcases List.mem_cons.mp member with rfl | found
              · exact ⟨[], owner, method, rest, rfl, by simp [unitAfter, here], rfl⟩
              · exact later found

theorem failsAt_of_skipped {program : Program} {options : Options} {unit : LoweredUnit}
    (success : program.lower options = .ok unit) {note : SkippedMethod}
    (member : note ∈ unit.skipped) :
    ∃ owner method, program.FailsAt options owner method note.error ∧
      note.method = (method.header owner).displayName := by
  rw [lower_eq] at success
  obtain ⟨progress, made, rfl⟩ := (map_eq_ok_iff ..).mp success
  cases going : options.keepGoing with
  | true =>
      rw [lowerMethods_keepGoing going] at made
      cases made
      obtain ⟨before, owner, method, rest, split, failure, named⟩ := mem_skipped_progressOf member
      exact ⟨owner, method, ⟨before, rest, split, failure⟩, named⟩
  | false =>
      rw [lowerMethods_givingUp going] at made
      split at made
      next none =>
        cases made
        simp [Progress.result, none] at member
      next => simp at made

theorem failsAt_of_error {program : Program} {options : Options} {error : Error}
    (failure : program.lower options = .error error) :
    ∃ owner method, program.FailsAt options owner method error := by
  rw [lower_eq] at failure
  cases going : options.keepGoing with
  | true => simp [lowerMethods_keepGoing going, Except.map] at failure
  | false =>
      rw [lowerMethods_givingUp going] at failure
      split at failure
      next => simp [Except.map] at failure
      next first rest skipped =>
        have member : first ∈ (progressOf program.classIndex options program.methodsWithCode
            .empty).skipped := by simp [skipped]
        obtain ⟨before, owner, method, tail, split, here, _⟩ := mem_skipped_progressOf member
        cases failure
        exact ⟨owner, method, before, tail, split, here⟩

theorem FailsAt.namesOnce_iff {program : Program} {options : Options} {owner : String}
    {method : MethodDecl} {error : Error} (failure : program.FailsAt options owner method error) :
    (error.NamesOnce (MethodDecl.errorName (method.header owner)) ↔
        ¬method.OnlyDescriptorMalformed) ∧
      (method.OnlyDescriptorMalformed →
        error = .unsupported (.methodDescriptor method.descriptor)) := by
  obtain ⟨before, rest, _, failed⟩ := failure
  exact MethodDecl.namesOnce_iff (Prod.ext failed rfl)

end Program

/-- The error of a run, and each error recorded for a skipped method, comes from one method of the
program. It names that method once and nothing else unless assembly accepts the method's records and its
descriptor is malformed; then it is the bare complaint about the descriptor. -/
theorem failures_name_method_iff (program : Program) (options : Options) :
    (∀ error, program.lower options = .error error →
      ∃ owner method, program.FailsAt options owner method error ∧
        (error.NamesOnce (MethodDecl.errorName (method.header owner)) ↔
          ¬method.OnlyDescriptorMalformed) ∧
        (method.OnlyDescriptorMalformed →
          error = .unsupported (.methodDescriptor method.descriptor))) ∧
    ∀ unit, program.lower options = .ok unit → ∀ note ∈ unit.skipped,
      ∃ owner method, program.FailsAt options owner method note.error ∧
        note.method = (method.header owner).displayName ∧
        (note.error.NamesOnce (MethodDecl.errorName (method.header owner)) ↔
          ¬method.OnlyDescriptorMalformed) ∧
        (method.OnlyDescriptorMalformed →
          note.error = .unsupported (.methodDescriptor method.descriptor)) := by
  constructor
  · intro error failure
    obtain ⟨owner, method, failed⟩ := Program.failsAt_of_error failure
    exact ⟨owner, method, failed, failed.namesOnce_iff⟩
  · intro unit success note member
    obtain ⟨owner, method, failed, named⟩ := Program.failsAt_of_skipped success member
    exact ⟨owner, method, failed, named, failed.namesOnce_iff⟩

def Sample.untyped : MethodDecl :=
  { name := "run", descriptor := "()", isStatic := true, maxStack := 0, maxLocals := 0
    code := [.simple "return" none], tryCatch := [] }

def Sample.untypedProgram : Program :=
  { classes := [{ name := "t/Main", superName := none, fields := [], methods := [Sample.untyped] }] }

theorem malformed_descriptor_fails_unnamed :
    ∃ error, Sample.untypedProgram.lower {} = .error error ∧
      Sample.untypedProgram.FailsAt {} "t/Main" Sample.untyped error ∧
      ¬error.NamesOnce "t/Main.run()" := by
  have failure : Sample.untypedProgram.lower {} =
      .error (.unsupported (.methodDescriptor "()")) := by decide +kernel
  obtain ⟨owner, method, failed, named, _⟩ :=
    (failures_name_method_iff Sample.untypedProgram {}).1 _ failure
  obtain ⟨before, rest, split, _⟩ := id failed
  have only : (owner, method) ∈ [("t/Main", Sample.untyped)] := by
    rw [show [("t/Main", Sample.untyped)] = Sample.untypedProgram.methodsWithCode from rfl, split]
    simp
  obtain ⟨rfl, rfl⟩ := Prod.mk.inj (List.mem_singleton.mp only)
  have malformed : Sample.untyped.OnlyDescriptorMalformed := by decide +kernel
  have name : MethodDecl.errorName (Sample.untyped.header "t/Main") = "t/Main.run()" := by
    decide +kernel
  rw [name] at named
  exact ⟨_, failure, failed, fun once => named.mp once malformed⟩

end BytecodeToC
