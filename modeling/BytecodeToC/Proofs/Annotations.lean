import BytecodeToC.Proofs.KeepGoing
import BytecodeToC.Proofs.Manifest
import BytecodeToC.Proofs.Marks
import Mathlib.Data.List.Chain

/-!
Annotated lowering. With comments or without, a run lowers the same methods, each instruction in the
same state, and ends in the same way. The annotated code of a method is the plain code with one comment
before what each instruction puts out, labels and try regions apart. A comment ends where its text
ends, whatever names stand in it.
-/

namespace BytecodeToC

open Result

/-! The text of a comment -/

namespace Emission

theorem head?_commentSafe (text : List Char) : (commentSafe text).head? = text.head? := by
  fun_cases commentSafe text <;> rfl

theorem isChain_commentSafe (text : List Char) :
    (commentSafe text).IsChain fun first second => ¬(first = '*' ∧ second = '/') := by
  fun_induction commentSafe text with
  | case1 rest ih => simpa [List.isChain_cons] using ih
  | case2 c rest other ih =>
      refine List.isChain_cons.mpr ⟨?_, ih⟩
      rintro second next ⟨rfl, rfl⟩
      -- The next character is that of the text, where the pair would have been taken apart.
      rw [head?_commentSafe] at next
      obtain ⟨tail, rfl⟩ := List.head?_eq_some_iff.mp next
      exact other tail rfl rfl
  | case3 => exact .nil

theorem not_infix_commentSafe (text : List Char) :
    ¬['*', '/'] <:+: ' ' :: (commentSafe text ++ [' ']) := by
  intro found
  have chain : (' ' :: (commentSafe text ++ [' '])).IsChain
      fun first second => ¬(first = '*' ∧ second = '/') := by
    refine List.isChain_cons.mpr ⟨by simp, ?_⟩
    exact List.isChain_append.mpr ⟨isChain_commentSafe text, by simp, by simp⟩
  simpa using chain.infix found

theorem filter_commentSafe (text : List Char) :
    (commentSafe text).filter (· ≠ ' ') = text.filter (· ≠ ' ') := by
  fun_induction commentSafe text with
  | case1 rest ih => simpa using ih
  | case2 c rest other ih => by_cases blank : c = ' ' <;> simp_all
  | case3 => rfl

example : String.ofList (commentSafe "**/*/".toList) = "** /* /" := by decide

end Emission

/-- The comment on an instruction: one that spells out the instruction and ends at its end only, or
nothing for a label or a try region. -/
def Instr.Remark (instruction : Instr) (text : String) : Prop :=
  match instruction with
  | .label _ | .tryRegion _ => text = ""
  | _ =>
    ∃ inside : String, text = C.line 1 ("/*" ++ inside ++ "*/") ∧ ¬['*', '/'] <:+: inside.toList ∧
      inside.toList.filter (· ≠ ' ') = instruction.describe.toList.filter (· ≠ ' ')

theorem C.bodyText_comment (note : String) :
    bodyText [.stmt (.comment note)] = line 1 ("/*" ++ (" " ++ note ++ " ") ++ "*/") := by
  change String.join [line 1 ("/*" ++ " " ++ note ++ (" " ++ "*/"))] = _
  simp only [String.join_cons, String.join_nil, String.append_empty, String.append_assoc]

theorem Emission.remark_annotation (instruction : Instr) :
    instruction.Remark (C.bodyText ( annotation instruction)) := by
  have comment : ∃ inside : String,
      C.bodyText
          [.stmt (.comment (String.ofList (commentSafe instruction.describe.toList)))] =
        C.line 1 ("/*" ++ inside ++ "*/") ∧ ¬['*', '/'] <:+: inside.toList ∧
      inside.toList.filter (· ≠ ' ') = instruction.describe.toList.filter (· ≠ ' ') := by
    refine ⟨_, C.bodyText_comment _, ?_, ?_⟩
    · simpa using not_infix_commentSafe instruction.describe.toList
    · simpa using filter_commentSafe instruction.describe.toList
  cases instruction with
  | label id => rfl
  | tryRegion region => rfl
  | _ => exact comment

/-! Bodies -/

namespace Emit

theorem run_map {α β : Type} (change : α → β) (action : Emit α) (state : BodyState) :
    (change <$> action).run.run state =
      ((action.run.run state).1.map change, (action.run.run state).2) := by
  simp only [ExceptT.run_map, StateT.run_map]
  rcases action.run.run state with ⟨_ | _, after⟩ <;> rfl

end Emit

namespace Emission

open C

def weave (annotate : Bool) (instructions : List Instr) (pieces : List (List Item)) : List Item :=
  (List.zipWith (fun instruction piece => (if annotate then annotation instruction else []) ++ piece)
    instructions pieces).flatten

theorem instrs_eq_weave (context : MethodContext) (annotate : Bool) (instructions : List Instr) :
    instrs context annotate instructions =
      weave annotate instructions <$> instructions.mapM (instr context) := by
  induction instructions with
  | nil => rfl
  | cons instruction rest ih =>
      rw [instrs, ih, List.mapM_cons]
      simp [weave]

def outputs (context : MethodContext) : Emit (List (List Item)) := do
  let pieces ← context.list.instrs.mapM (instr context)
  closed
  pure pieces

theorem body_eq_weave (context : MethodContext) (annotate : Bool) :
    body context annotate = weave annotate context.list.instrs <$> outputs context := by
  rw [body, instrs_eq_weave, outputs]
  simp only [map_eq_pure_bind, bind_assoc, pure_bind, closed]
  congr 1
  funext pieces
  congr 1
  funext state
  cases state.openRegions <;> rfl

section

variable {context : MethodContext} {state after : BodyState}

theorem forall₂_outputs {related : Instr → List Item → Prop}
    (each : ∀ instruction, Emit.Ensures (fun _ => True) (related instruction) (fun _ => True)
      (instr context instruction)) {pieces : List (List Item)}
    (ran : (outputs context).run.run state = (.ok pieces, after)) :
    List.Forall₂ related context.list.instrs pieces := by
  have closing : Emit.Ensures (fun _ => True) (fun _ => True) (fun _ => True) closed :=
    fun _ _ => ⟨trivial, fun _ _ => trivial, fun _ _ => trivial⟩
  have all : Emit.Ensures (fun _ => True) (List.Forall₂ related context.list.instrs) (fun _ => True)
      (outputs context) :=
    (Emit.ensures_list_mapM each _).bind fun _ made => closing.bind fun _ _ => Emit.ensures_pure made
  exact (all state trivial).2.1 pieces (by rw [ran])

theorem length_of_outputs {pieces : List (List Item)}
    (ran : (outputs context).run.run state = (.ok pieces, after)) :
    pieces.length = context.list.instrs.length := by
  have aligned := forall₂_outputs (fun _ _ _ => ⟨trivial, fun _ _ => trivial, fun _ _ => trivial⟩) ran
  exact aligned.length_eq.symm

theorem exists_pieces {annotate : Bool} {items : List Item}
    (ran : (body context annotate).run.run state = (.ok items, after))
    {related : Instr → List Item → Prop}
    (each : ∀ instruction, Emit.Ensures (fun _ => True) (related instruction) (fun _ => True)
      (instr context instruction)) :
    ∃ pieces, items = weave annotate context.list.instrs pieces ∧
      List.Forall₂ related context.list.instrs pieces := by
  rw [body_eq_weave, Emit.run_map] at ran
  cases made : (outputs context).run.run state with
  | mk result last =>
      rw [made] at ran
      cases result with
      | error error => cases ran
      | ok pieces =>
          cases ran
          exact ⟨pieces, rfl, forall₂_outputs each made⟩

end

end Emission

namespace C

theorem bodyText_flatten (pieces : List (List Item)) :
    bodyText pieces.flatten = String.join (pieces.map bodyText) := by
  induction pieces with
  | nil => rfl
  | cons piece rest ih => simp [bodyText_append, ih, String.join_cons]

end C

namespace Emission

open C

theorem weave_plain {instructions : List Instr} {pieces : List (List Item)}
    (each : pieces.length = instructions.length) : weave false instructions pieces = pieces.flatten := by
  have second : List.zipWith (fun (_ : Instr) (piece : List Item) => piece) instructions pieces =
      pieces := by
    calc
      _ = (instructions.zip pieces).map Prod.snd := by rw [List.zip, List.map_zipWith]
      _ = pieces := List.map_snd_zip (by omega)
  simpa [weave] using congrArg List.flatten second

theorem bodyText_weave (instructions : List Instr) (pieces : List (List Item)) :
    bodyText (weave true instructions pieces) =
      String.join (List.zipWith (· ++ ·)
        (instructions.map fun instruction => bodyText ( annotation instruction))
        (pieces.map bodyText)) := by
  rw [weave, bodyText_flatten, List.map_zipWith, List.zipWith_map]
  simp [bodyText_append]

end Emission

/-! Methods -/

def LoweredMethod.withBody (method : LoweredMethod) (body : List C.Item) : LoweredMethod :=
  { method with function := { method.function with body } }

namespace MethodHeader

def PutsOut (header : MethodHeader) (list : Listing) (index : ClassIndex) (unit : UnitState)
    (pieces : List (List C.Item)) : Prop :=
  ∃ type scope after, MethodType.parse header.descriptor = .ok type ∧
    unit.scope.markLabels list = (.ok (), scope) ∧
    (Emission.outputs (header.context list (LocalTable.ofType list header.isStatic type)
      index)).run.run { scope } = (.ok pieces, after)

theorem PutsOut.length_eq {header : MethodHeader} {list : Listing} {index : ClassIndex}
    {unit : UnitState} {pieces : List (List C.Item)} (made : header.PutsOut list index unit pieces) :
    pieces.length = list.instrs.length := by
  obtain ⟨_, _, _, _, _, ran⟩ := made
  exact Emission.length_of_outputs ran

/-- Comments have no part in lowering a method: it yields one function, still to be written out with
comments or without, and the same unit. -/
theorem lower_annotate (header : MethodHeader) (list : Listing) (index : ClassIndex)
    (options : Options) (unit : UnitState) :
    ∃ (result : Except Error (Bool → LoweredMethod)) (after : UnitState),
      (∀ annotate, header.lower list index { options with annotate } unit =
        (result.map fun write => write annotate, after)) ∧
      Yields (fun write => ∃ pieces, header.PutsOut (list.under options) index unit pieces ∧
        ∀ annotate, write annotate =
          (write false).withBody (Emission.weave annotate (list.under options).instrs pieces))
        result := by
  cases parsed : MethodType.parse header.descriptor with
  | error error =>
      refine ⟨.error error, unit, ?_, yields_error _ error⟩
      intro annotate
      simp only [lower, parsed]
      rfl
  | ok type =>
      have under (annotate : Bool) : list.under { options with annotate } = list.under options := rfl
      simp only [lower, parsed, lowerTyped_eq, under]
      rcases marked : unit.scope.markLabels (list.under options) with ⟨error | _, scope⟩
      · exact ⟨.error _, { unit with scope }, fun _ => rfl, yields_error _ _⟩
      · rcases ran : (Emission.outputs (header.context (list.under options)
            (LocalTable.ofType (list.under options) header.isStatic type) index)).run.run
            { scope } with ⟨result, state⟩
        have woven (annotate : Bool) : (Emission.body (header.context (list.under options)
            (LocalTable.ofType (list.under options) header.isStatic type) index) annotate).run.run
            { scope } =
              (result.map (Emission.weave annotate (list.under options).instrs), state) := by
          rw [Emission.body_eq_weave, Emit.run_map, ran]
          rfl
        have body (annotate : Bool) := header.lowerBody_eq (list.under options)
          (LocalTable.ofType (list.under options) header.isStatic type) index annotate
          { unit with scope } (woven annotate)
        simp only [body]
        cases result with
        | error error => exact ⟨.error _, _, fun _ => rfl, yields_error _ _⟩
        | ok pieces =>
            refine ⟨.ok _, _, fun _ => rfl, (yields_ok _ _).mpr ?_⟩
            exact ⟨pieces, ⟨type, scope, state, parsed, marked, ran⟩, fun _ => rfl⟩

end MethodHeader

theorem MethodDecl.lower_annotate (method : MethodDecl) (owner : String) (index : ClassIndex)
    (options : Options) (unit : UnitState) :
    ∃ (result : Except Error (Bool → LoweredMethod)) (after : UnitState),
      ∀ annotate, method.lower owner index { options with annotate } unit =
        (result.map fun write => write annotate, after) := by
  unfold MethodDecl.lower
  rcases method.assemble unit.beginMethod with ⟨error | list, assembled⟩
  · exact ⟨.error _, assembled, fun _ => rfl⟩
  · obtain ⟨result, after, same, _⟩ :=
      (method.header owner).lower_annotate list index options assembled
    exact ⟨result, after, same⟩

structure LoweredMethod.Annotates (visit : Visit) (index : ClassIndex) (options : Options)
    (plain annotated : LoweredMethod) : Prop where
  lowered : (visit.lower index { options with annotate := false }).1 = .ok plain
  symbol : annotated.symbol = plain.symbol
  dependencies : annotated.dependencies = plain.dependencies
  virtualCalls : annotated.virtualCalls = plain.virtualCalls
  folds : annotated.folds = plain.folds
  code : ∃ (opening : String) (pieces : List (List C.Item)) (remarks : List String),
    visit.header.PutsOut (visit.list.under options) index visit.unit pieces ∧
    pieces.length = (visit.list.under options).instrs.length ∧
    List.Forall₂ Instr.Remark (visit.list.under options).instrs remarks ∧
    plain.code = opening ++ String.join (pieces.map C.bodyText) ++ "\x7d\n" ∧
    annotated.code =
      opening ++ String.join (List.zipWith (· ++ ·) remarks (pieces.map C.bodyText)) ++ "\x7d\n"

theorem Visit.annotates (visit : Visit) (index : ClassIndex) (options : Options) :
    Option.Rel (LoweredMethod.Annotates visit index options)
      (visit.lower index { options with annotate := false }).1.toOption
      (visit.lower index { options with annotate := true }).1.toOption := by
  obtain ⟨result, after, same, writes⟩ :=
    visit.header.lower_annotate visit.list index options visit.unit
  simp only [Visit.lower, same]
  cases result with
  | error error => exact .none
  | ok write =>
      obtain ⟨pieces, made, written⟩ := writes write rfl
      have plain : (write false).function.body = pieces.flatten := by
        rw [written false, ← Emission.weave_plain made.length_eq]
        rfl
      have annotates : LoweredMethod.Annotates visit index options (write false) (write true) := by
        refine
          { lowered := congrArg Prod.fst (same false)
            symbol := by rw [written true]; rfl
            dependencies := by rw [written true]; rfl
            virtualCalls := by rw [written true]; rfl
            folds := by rw [written true]; rfl
            code := ⟨(write false).function.opening, pieces,
              (visit.list.under options).instrs.map fun instruction =>
                C.bodyText ( Emission.annotation instruction),
              made, made.length_eq, ?_, ?_, ?_⟩ }
        · exact List.forall₂_map_right_iff.mpr
            (List.forall₂_same.mpr fun instruction _ => Emission.remark_annotation instruction)
        · rw [LoweredMethod.code, C.Function.text_eq, plain, C.bodyText_flatten]
        · rw [written true, ← Emission.bodyText_weave]
          rfl
      exact .some annotates

/-! Runs -/

inductive Result.Alike {α β : Type} (related : α → β → Prop) :
    Except Error α → Except Error β → Prop
  | ok {value other} (holds : related value other) : Alike related (.ok value) (.ok other)
  | error (error : Error) : Alike related (.error error) (.error error)

structure LoweredUnit.Annotates (program : Program) (options : Options)
    (plain annotated : LoweredUnit) : Prop where
  methods : List.Forall₂
    (fun method other => ∃ visit ∈ program.visits,
      LoweredMethod.Annotates visit program.classIndex options method other)
    plain.methods annotated.methods
  dependencies : annotated.dependencies = plain.dependencies
  virtualCalls : annotated.virtualCalls = plain.virtualCalls
  pool : annotated.pool = plain.pool
  skipped : annotated.skipped = plain.skipped

namespace Program

theorem lowerMethods_annotate (index : ClassIndex) (options : Options)
    (methods : List (String × MethodDecl)) (unit : UnitState) :
    ∃ result : Except Error (Bool → Progress),
      (∀ annotate, lowerMethods index { options with annotate } methods unit =
        result.map fun write => write annotate) ∧
      Yields (fun write => (write true).skipped = (write false).skipped ∧
        (write true).unit = (write false).unit) result := by
  induction methods generalizing unit with
  | nil => exact ⟨.ok fun _ => ⟨[], [], unit⟩, fun _ => rfl, (yields_ok _ _).mpr ⟨rfl, rfl⟩⟩
  | cons entry rest ih =>
      obtain ⟨owner, method⟩ := entry
      obtain ⟨lowered, after, here⟩ := method.lower_annotate owner index options unit
      obtain ⟨others, later, kept⟩ := ih after
      cases lowered with
      | ok write =>
          refine ⟨others.map fun progress annotate =>
            { progress annotate with lowered := write annotate :: (progress annotate).lowered },
            ?_, ?_⟩
          · intro annotate
            simp only [lowerMethods, here, later, Except.map]
            cases others <;> rfl
          · intro progress made
            obtain ⟨given, found, rfl⟩ := (map_eq_ok_iff ..).mp made
            exact kept given found
      | error error =>
          by_cases goesOn : options.keepGoing = true
          · let note : SkippedMethod := { method := (method.header owner).displayName, error }
            refine ⟨others.map fun progress annotate =>
              { progress annotate with skipped := note :: (progress annotate).skipped }, ?_, ?_⟩
            · intro annotate
              simp only [lowerMethods, here, later, Except.map]
              rw [if_pos goesOn]
              cases others <;> rfl
            · intro progress made
              obtain ⟨given, found, rfl⟩ := (map_eq_ok_iff ..).mp made
              obtain ⟨skipped, last⟩ := kept given found
              exact ⟨congrArg (note :: ·) skipped, last⟩
          · refine ⟨.error error, ?_, yields_error _ error⟩
            intro annotate
            simp only [lowerMethods, here, Except.map]
            exact if_neg goesOn

theorem annotates_methods {program : Program} {options : Options} {plain annotated : LoweredUnit}
    (bare : program.lower { options with annotate := false } = .ok plain)
    (commented : program.lower { options with annotate := true } = .ok annotated) :
    List.Forall₂
      (fun method other => ∃ visit ∈ program.visits,
        LoweredMethod.Annotates visit program.classIndex options method other)
      plain.methods annotated.methods := by
  have visited : List.Forall₂ (fun visit other => visit = other ∧ visit ∈ program.visits)
      program.visits program.visits :=
    List.forall₂_same.mpr fun _ member => ⟨rfl, member⟩
  rw [methods_of_lower bare, methods_of_lower commented]
  refine List.rel_filterMap ?_ visited
  rintro visit _ ⟨rfl, member⟩
  have annotates := visit.annotates program.classIndex options
  dsimp only
  generalize (visit.lower _ _).1.toOption = first at annotates ⊢
  generalize (visit.lower _ _).1.toOption = second at annotates ⊢
  cases annotates with
  | none => exact .none
  | some holds => exact .some ⟨visit, member, holds⟩

theorem Progress.dependencies_result (progress : Progress) : progress.result.dependencies =
    NameSet.ofList ((progress.result.methods.map (·.dependencies)).flatMap NameSet.names) := by
  rw [List.flatMap_map]
  rfl

end Program

/-- Comments are all that annotation changes: a run with them fails with the same error as one without
or yields the same unit, except that in the code of each method a comment stands before what each
instruction puts out. -/
theorem annotation_adds_comments_only (program : Program) (options : Options) :
    Result.Alike (LoweredUnit.Annotates program options)
      (program.lower { options with annotate := false })
      (program.lower { options with annotate := true }) := by
  obtain ⟨result, same, kept⟩ :=
    Program.lowerMethods_annotate program.classIndex options program.methodsWithCode .empty
  have lowered (annotate : Bool) : program.lower { options with annotate } =
      result.map fun write => (write annotate).result := by
    rw [Program.lower_eq, same]
    cases result <;> rfl
  cases result with
  | error error =>
      rw [lowered, lowered]
      exact .error error
  | ok write =>
      have methods := Program.annotates_methods (lowered false) (lowered true)
      have mentioned : (write false).result.methods.map (·.dependencies) =
          (write true).result.methods.map (·.dependencies) := by
        rw [← List.forall₂_eq_eq_eq, List.forall₂_map_left_iff, List.forall₂_map_right_iff]
        exact methods.imp fun _ _ ⟨_, _, annotates⟩ => annotates.dependencies.symm
      obtain ⟨skipped, unit⟩ := kept write rfl
      rw [lowered, lowered]
      refine .ok
        { methods
          dependencies := ?_
          virtualCalls := congrArg (·.virtualCalls) unit
          pool := congrArg (·.pool) unit
          skipped }
      rw [Program.Progress.dependencies_result, Program.Progress.dependencies_result, mentioned]

end BytecodeToC
