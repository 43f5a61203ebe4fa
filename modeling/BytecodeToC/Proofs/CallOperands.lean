import BytecodeToC.Proofs.Ownership

/-!
The operands of calls. A lowered call takes one value off the stack for each parameter that the program
gives no text for, the last parameter first, and then the receiver if that is on the stack. It passes
what it has taken or was given in the order of declaration, releases the objects that it took, and
leaves its result, if there is one and it is wanted. So of the stacks that a run can start from and
end with, all is known but the values.
-/

namespace BytecodeToC

open Result

def C.Stmt.perform (result : Option StackType) (application : C.Call) : C.Stmt :=
  match result with
  | some type => .pushCall type application
  | none => .call application

namespace Call

def literal? (call : Call) (place : Nat) : Option String := call.literalArgs[place]?.join

def takesReceiver (call : Call) : Bool := call.dispatch ≠ .static && call.receiver = .stack

/-- What a call takes off the stack, in this order, and the variables it takes it into. -/
def operands (call : Call) (type : MethodType) : List (StackType × String) :=
  (type.params.zipIdx.reverse.filterMap fun (param, place) =>
    if call.literal? place = none then some (param.stackType, "__arg" ++ toString place) else none) ++
  if call.takesReceiver then [(.object, "__receiver")] else []

def receiverText? (call : Call) : Option String :=
  if call.dispatch = .static then none
  else
    match call.receiver with
    | .stack => some "__receiver"
    | .literal text => some text
    | .currentObject => some "__this"

def passed (call : Call) (type : MethodType) : List String :=
  "threadStateData" :: (call.receiverText?.toList ++
    type.params.mapIdx fun place _ => (call.literal? place).getD ("__arg" ++ toString place))

def result? (call : Call) (type : MethodType) : Option StackType :=
  if call.discardResult then none else type.result.map FieldType.stackType

def statements (call : Call) (type : MethodType) (function : String) : List C.Stmt :=
  (call.operands type).map (fun operand => .pop operand.1 operand.2) ++
    ((if call.takesReceiver then [.checkNull "__receiver"] else []) ++
      C.Stmt.perform (call.result? type) { function, args := call.passed type } ::
      ((call.operands type).filter (·.1 = .object)).map (fun operand => .release operand.2))

def popLine : StackType × String → String
  | (.int, name) => "JAVA_INT " ++ name ++ " = POP_INT();"
  | (.long, name) => "JAVA_LONG " ++ name ++ " = POP_LONG();"
  | (.float, name) => "JAVA_FLOAT " ++ name ++ " = POP_FLOAT();"
  | (.double, name) => "JAVA_DOUBLE " ++ name ++ " = POP_DOUBLE();"
  | (.object, name) => "JAVA_OBJECT " ++ name ++ " = POP_OBJ();"

def performLine : Option StackType → String → String
  | none, applied => applied ++ ";"
  | some .int, applied => "PUSH_INT(" ++ applied ++ ");"
  | some .long, applied => "PUSH_LONG(" ++ applied ++ ");"
  | some .float, applied => "PUSH_FLOAT(" ++ applied ++ ");"
  | some .double, applied => "PUSH_DOUBLE(" ++ applied ++ ");"
  | some .object, applied => "PUSH_OBJ(RETAIN(" ++ applied ++ "));"

def lines (call : Call) (type : MethodType) (function : String) : List String :=
  (call.operands type).map popLine ++
    ((if call.takesReceiver then ["CHECK_NULL(__receiver);"] else []) ++
      performLine (call.result? type)
        (function ++ "(" ++ String.intercalate ", " (call.passed type) ++ ")") ::
      ((call.operands type).filter (·.1 = .object)).map fun operand => "RELEASE(" ++ operand.2 ++ ");")

theorem text_pop (operand : StackType × String) :
    (C.Stmt.pop operand.1 operand.2).text = popLine operand := by
  obtain ⟨type, name⟩ := operand
  cases type <;>
    simp [← String.toList_inj, popLine, StackType.cType, C.popText, StackType.suffix]

theorem text_perform (result : Option StackType) (application : C.Call) :
    (C.Stmt.perform result application).text =
      performLine result
        (application.function ++ "(" ++ String.intercalate ", " application.args ++ ")") := by
  cases result with
  | none => rfl
  | some type => cases type <;> rfl

theorem text_statements (call : Call) (type : MethodType) (function : String) :
    (call.statements type function).map C.Stmt.text = call.lines type function := by
  have check : (if call.takesReceiver then [C.Stmt.checkNull "__receiver"] else []).map C.Stmt.text =
      if call.takesReceiver then ["CHECK_NULL(__receiver);"] else [] := by
    cases call.takesReceiver <;> rfl
  simp only [statements, lines, List.map_append, List.map_cons, List.map_map, check, text_perform,
    Function.comp_def, text_pop, C.Stmt.text_release]

end Call

namespace Emission

open C

/-! What is popped -/

theorem arguments_eq (first : Nat) (params : List FieldType) (literals : List (Option String)) :
    arguments first params literals = params.mapIdx fun place param =>
      match literals[place]?.join with
      | some text => .literal text
      | none => .popped param.stackType ("__arg" ++ toString (first + place)) := by
  induction params generalizing first literals with
  | nil => rfl
  | cons param rest ih =>
      rw [arguments, ih, List.mapIdx_cons]
      cases literals with
      | nil => simp [Nat.add_assoc, Nat.add_comm 1]
      | cons literal others => cases literal <;> simp [Nat.add_assoc, Nat.add_comm 1]

def Argument.taken? : Argument → Option (StackType × String)
  | popped type name => some (type, name)
  | literal _ => none

theorem flatMap_pop (operands : List Argument) :
    operands.flatMap Argument.pop =
      (operands.filterMap Argument.taken?).map fun operand => .pop operand.1 operand.2 := by
  induction operands with
  | nil => rfl
  | cons operand rest ih =>
      cases operand <;> simp [Argument.pop, Argument.taken?, List.filterMap_cons, ih]

theorem flatMap_release_taken (operands : List Argument) :
    operands.flatMap Argument.release =
      ((operands.filterMap Argument.taken?).filter (·.1 = .object)).map
        fun operand => .release operand.2 := by
  induction operands with
  | nil => rfl
  | cons operand rest ih =>
      cases operand with
      | literal => simp [Argument.release, Argument.taken?, List.filterMap_cons, ih]
      | popped type name =>
          cases type <;> simp [Argument.release, Argument.taken?, ih]

theorem taken_arguments (call : Call) (type : MethodType) :
    (arguments 0 type.params call.literalArgs).reverse.filterMap Argument.taken? =
      type.params.zipIdx.reverse.filterMap fun (param, place) =>
        if call.literal? place = none then some (param.stackType, "__arg" ++ toString place)
        else none := by
  rw [arguments_eq, List.mapIdx_eq_zipIdx_map, ← List.map_reverse, List.filterMap_map]
  refine List.filterMap_congr fun indexed _ => ?_
  obtain ⟨param, place⟩ := indexed
  cases given : call.literalArgs[place]?.join <;>
    simp [Call.literal?, given, Argument.taken?]

theorem texts_arguments (call : Call) (type : MethodType) :
    (arguments 0 type.params call.literalArgs).map Argument.text =
      type.params.mapIdx fun place _ => (call.literal? place).getD ("__arg" ++ toString place) := by
  rw [arguments_eq, List.mapIdx_eq_zipIdx_map, List.mapIdx_eq_zipIdx_map, List.map_map]
  refine List.map_congr_left fun indexed _ => ?_
  obtain ⟨param, place⟩ := indexed
  cases given : call.literalArgs[place]?.join <;> simp [Call.literal?, given, Argument.text]

theorem receiver_eq_ok {context : MethodContext} {call : Call} {given : Option Argument}
    (made : receiver context call = .ok given) :
    given.toList.filterMap Argument.taken? =
        (if call.takesReceiver then [(.object, "__receiver")] else []) ∧
      given.map Argument.text = call.receiverText? ∧
      nullCheck given = if call.takesReceiver then [.checkNull "__receiver"] else [] := by
  unfold receiver at made
  split at made
  next static =>
    cases made
    simp [Call.takesReceiver, Call.receiverText?, static, nullCheck]
  next stack dynamic =>
    cases made
    simp [Call.takesReceiver, Call.receiverText?, Ne.intro dynamic, stack, nullCheck,
      Argument.taken?, Argument.text]
  next text given dynamic =>
    cases made
    simp [Call.takesReceiver, Call.receiverText?, Ne.intro dynamic, given, nullCheck,
      Argument.taken?, Argument.text, List.filterMap_cons]
  next current dynamic =>
    obtain ⟨this, found, rfl⟩ := (map_eq_ok_iff ..).mp made
    have name : this = "__this" := by
      unfold MethodContext.currentObject at found
      split at found <;> cases found
      rfl
    simp [Call.takesReceiver, Call.receiverText?, Ne.intro dynamic, current, nullCheck,
      Argument.taken?, Argument.text, name, List.filterMap_cons]

theorem taken_operands {context : MethodContext} {call : Call} {given : Option Argument}
    (made : receiver context call = .ok given) (type : MethodType) :
    ((arguments 0 type.params call.literalArgs).reverse ++ given.toList).filterMap Argument.taken? =
      call.operands type := by
  rw [List.filterMap_append, taken_arguments, (receiver_eq_ok made).1]
  rfl

theorem names_operands {context : MethodContext} {call : Call} {given : Option Argument}
    (made : receiver context call = .ok given) (type : MethodType) :
    ((call.operands type).map Prod.snd).Sublist (operandNames type.params.length) := by
  have names := (names_arguments 0 type.params call.literalArgs).reverse.append (names_receiver made)
  rw [← List.filterMap_reverse, ← List.filterMap_append] at names
  have same : ((arguments 0 type.params call.literalArgs).reverse ++ given.toList).filterMap
      Argument.name? = (call.operands type).map Prod.snd := by
    rw [← taken_operands made, List.map_filterMap]
    exact List.filterMap_congr fun argument _ => by cases argument <;> rfl
  rw [← same]
  exact names

theorem nodup_operands {context : MethodContext} {call : Call} {given : Option Argument}
    (made : receiver context call = .ok given) (type : MethodType) :
    ((call.operands type).map Prod.snd).Nodup :=
  (nodup_operandNames _).sublist (names_operands made type)

theorem performCall_eq {context : MethodContext} {call : Call} {given : Option Argument}
    (made : receiver context call = .ok given) (other : isArrayClone call = false)
    (index : ClassIndex) (type : MethodType) :
    performCall index call type given (arguments 0 type.params call.literalArgs) =
      .perform (call.result? type)
        { function := callTarget index call type, args := call.passed type } := by
  obtain ⟨_, text, _⟩ := receiver_eq_ok made
  have args : threadState ::
      (given.toList ++ arguments 0 type.params call.literalArgs).map Argument.text =
        call.passed type := by
    rw [List.map_append, texts_arguments, ← Option.toList_map, text]
    rfl
  simp only [performCall, other, Bool.false_eq_true, if_false, args, Call.result?]
  cases type.result with
  | none => cases call.discardResult <;> rfl
  | some result => cases call.discardResult <;> rfl

theorem invokeItems_eq {context : MethodContext} {call : Call} {given : Option Argument}
    (made : receiver context call = .ok given) (other : isArrayClone call = false)
    (index : ClassIndex) (type : MethodType) :
    invokeItems index call type given (arguments 0 type.params call.literalArgs) =
      if call.operands type = [] then
        (call.statements type (callTarget index call type)).map .stmt
      else [.block (call.statements type (callTarget index call type))] := by
  obtain ⟨_, _, checks⟩ := receiver_eq_ok made
  simp only [invokeItems, flatMap_pop, flatMap_release_taken, taken_operands made, checks,
    performCall_eq made other, List.map_eq_nil_iff]
  split
  next none => simp [Call.statements, none]
  next => simp [Call.statements]

theorem invoke_eq_ok {context : MethodContext} {call : Call} {items : List Item}
    {symbol : Option String} (invoked : invoke context call = .ok (items, symbol)) :
    ∃ type given, MethodType.parse call.descriptor = .ok type ∧
      receiver context call = .ok given ∧
      items = invokeItems context.index call type given
        (arguments 0 type.params call.literalArgs) := by
  obtain ⟨type, parsed, invoked⟩ := (bind_eq_ok_iff ..).mp invoked
  split at invoked
  next => simp at invoked
  next =>
    split at invoked
    next => simp at invoked
    next =>
      obtain ⟨given, made, invoked⟩ := (bind_eq_ok_iff ..).mp invoked
      cases invoked
      exact ⟨type, given, parsed, made, rfl⟩

end Emission

/-! Running a call -/

namespace C

def Word.AllFit (words : List Word) (types : List StackType) : Prop :=
  List.Forall₂ (fun word type => word.fits type = true) words types

variable {machine next last : Machine} {flow : Flow}

theorem step_pop_iff {type : StackType} {name : String} :
    Step machine (.pop type name) flow next ↔
      ∃ word rest, machine.stack = word :: rest ∧ word.fits type = true ∧ flow = .next ∧
        next = (machine.withStack rest).declare name word := by
  constructor
  · intro step
    cases step with
    | pop top fits => exact ⟨_, _, top, fits, rfl, rfl⟩
    | silent idle => cases idle
    | call runs => cases runs
  · rintro ⟨word, rest, top, fits, rfl, rfl⟩
    exact .pop top fits

theorem step_checkNull_iff {name : String} :
    Step machine (.checkNull name) flow next ↔ flow = .next ∧ next = machine := by
  constructor
  · intro step
    cases step with
    | silent => exact ⟨rfl, rfl⟩
    | call runs => cases runs
  · rintro ⟨rfl, rfl⟩
    exact .silent rfl

theorem step_release_iff {name : String} :
    Step machine (.release name) flow next ↔
      ∃ word, machine.read? name = some word ∧ word.isReference = true ∧ flow = .next ∧
        next = machine.retain word (-1) := by
  constructor
  · intro step
    cases step with
    | release found reference => exact ⟨_, found, reference, rfl, rfl⟩
    | silent idle => cases idle
    | call runs => cases runs
  · rintro ⟨word, found, reference, rfl, rfl⟩
    exact .release found reference

theorem step_perform {result : Option StackType} {application : C.Call}
    (step : Step machine (.perform result application) flow next) :
    flow = .next ∧ next.locals = machine.locals ∧ next.temps = machine.temps ∧
      ∃ results, Word.AllFit results result.toList ∧ next.stack = results ++ machine.stack := by
  cases result with
  | none =>
      cases step with
      | call => exact ⟨rfl, rfl, rfl, [], .nil, rfl⟩
      | silent idle => cases idle
  | some type =>
      cases step with
      | pushCall settles fits => exact ⟨rfl, rfl, rfl, [_], .cons fits .nil, rfl⟩
      | call runs => cases runs
      | silent idle => cases idle

theorem exists_step_perform {result : Option StackType} {results : List Word}
    (fit : Word.AllFit results result.toList) (machine : Machine) (application : C.Call) :
    ∃ next, Step machine (.perform result application) .next next ∧
      next.temps = machine.temps ∧ next.stack = results ++ machine.stack := by
  have settles := machine.heap.settles_refl
  cases result with
  | none =>
      cases fit
      exact ⟨machine.withHeap machine.heap, .call rfl settles, rfl, rfl⟩
  | some type =>
      obtain - | ⟨fits, ⟨⟩⟩ := fit
      exact ⟨_, .pushCall settles fits, rfl, rfl⟩

theorem Sequence.cons_iff {α : Type} {step : Machine → α → Flow → Machine → Prop} {action : α}
    {rest : List α} (falls : ∀ flow next, step machine action flow next → flow = .next) :
    Sequence step machine (action :: rest) flow last ↔
      ∃ middle, step machine action .next middle ∧ Sequence step middle rest flow last := by
  constructor
  · intro run
    cases run with
    | cons here others => exact ⟨_, here, others⟩
    | leave here elsewhere => exact absurd (falls _ _ here) elsewhere
  · rintro ⟨middle, here, others⟩
    exact .cons here others

theorem run_stmts_iff {body : List Stmt} :
    Run machine (body.map .stmt) flow last ↔ Sequence Step machine body flow last := by
  constructor
  · intro run
    induction body generalizing machine with
    | nil => cases run; exact .nil
    | cons single rest ih =>
        cases run with
        | cons here others =>
            cases here with
            | stmt step => exact .cons step (ih others)
        | leave here elsewhere =>
            cases here with
            | stmt step => exact .leave step elsewhere
  · intro run
    induction run with
    | nil => exact .nil
    | cons step _ ih => exact .cons (.stmt step) ih
    | leave step elsewhere => exact .leave (.stmt step) elsewhere

theorem run_block_iff {body : List Stmt} :
    Run machine [.block body] flow last ↔
      ∃ inner, Sequence Step machine body flow inner ∧
        last = inner.closeBlock machine.temps.length := by
  constructor
  · intro run
    cases run with
    | cons here others =>
        cases others
        cases here with
        | block ran => exact ⟨_, ran, rfl⟩
    | leave here _ =>
        cases here with
        | block ran => exact ⟨_, ran, rfl⟩
  · rintro ⟨inner, ran, rfl⟩
    by_cases stays : flow = .next
    · subst stays
      exact .cons (.block ran) .nil
    · exact .leave (.block ran) stays

def Machine.taking (machine : Machine) (operands : List (StackType × String)) (words rest : List Word) :
    Machine :=
  { machine with stack := rest, temps := ((operands.map Prod.snd).zip words).reverse ++ machine.temps }

theorem Machine.taking_cons (machine : Machine) (operand : StackType × String)
    (operands : List (StackType × String)) (word : Word) (words rest below : List Word) :
    machine.taking (operand :: operands) (word :: words) rest =
      ((machine.withStack below).declare operand.2 word).taking operands words rest := by
  simp [taking, withStack, declare]

theorem Sequence.pops_iff {operands : List (StackType × String)} {body : List Stmt} :
    Sequence Step machine (operands.map (fun operand => .pop operand.1 operand.2) ++ body) flow last ↔
      ∃ words rest, machine.stack = words ++ rest ∧ Word.AllFit words (operands.map Prod.fst) ∧
        Sequence Step (machine.taking operands words rest) body flow last := by
  induction operands generalizing machine with
  | nil =>
      constructor
      · intro run
        exact ⟨[], machine.stack, rfl, .nil, run⟩
      · rintro ⟨_, rest, stack, ⟨⟩, run⟩
        obtain rfl : machine.stack = rest := stack
        exact run
  | cons operand others ih =>
      have falls (flow : Flow) (next : Machine)
          (step : Step machine (.pop operand.1 operand.2) flow next) : flow = .next := by
        obtain ⟨_, _, _, _, stays, _⟩ := step_pop_iff.mp step
        exact stays
      rw [List.map_cons, List.cons_append, Sequence.cons_iff falls]
      constructor
      · rintro ⟨middle, step, run⟩
        obtain ⟨word, below, top, fits, _, rfl⟩ := step_pop_iff.mp step
        obtain ⟨words, rest, stack, fit, run⟩ := ih.mp run
        refine ⟨word :: words, rest, top.trans (congrArg (word :: ·) stack), .cons fits fit, ?_⟩
        rwa [Machine.taking_cons]
      · rintro ⟨_, rest, stack, fit, run⟩
        obtain - | @⟨word, _, words, _, fits, fit⟩ := fit
        rw [Machine.taking_cons machine operand others word words rest (words ++ rest)] at run
        exact ⟨_, .pop stack fits, ih.mpr ⟨words, rest, rfl, fit, run⟩⟩

theorem Sequence.releases {operands : List (StackType × String)}
    (run : Sequence Step machine (operands.map fun operand => .release operand.2) flow last) :
    flow = .next ∧ last.stack = machine.stack ∧ last.locals = machine.locals ∧
      last.temps = machine.temps := by
  induction operands generalizing machine with
  | nil => cases run; exact ⟨rfl, rfl, rfl, rfl⟩
  | cons operand others ih =>
      cases run with
      | cons here rest =>
          obtain ⟨word, _, _, _, rfl⟩ := step_release_iff.mp here
          obtain ⟨stays, stack, locals, temps⟩ := ih rest
          exact ⟨stays, stack, locals, temps⟩
      | leave here elsewhere =>
          obtain ⟨_, _, _, stays, _⟩ := step_release_iff.mp here
          exact absurd stays elsewhere

theorem Sequence.exists_releases {operands : List (StackType × String)} {machine : Machine}
    (held : ∀ operand ∈ operands, ∃ word,
      machine.temps.lookup operand.2 = some word ∧ word.isReference = true) :
    ∃ last, Sequence Step machine (operands.map fun operand => .release operand.2) .next last := by
  induction operands generalizing machine with
  | nil => exact ⟨machine, .nil⟩
  | cons operand others ih =>
      obtain ⟨word, found, reference⟩ := held operand List.mem_cons_self
      have read : machine.read? operand.2 = some word := by
        simp [Machine.read?, Machine.named?, found]
      obtain ⟨last, run⟩ := @ih (machine.retain word (-1))
        fun other member => held other (List.mem_cons_of_mem _ member)
      exact ⟨last, .cons (.release read reference) run⟩

theorem lookup_taken {operands : List (StackType × String)} {words : List Word}
    (distinct : (operands.map Prod.snd).Nodup) (fit : Word.AllFit words (operands.map Prod.fst))
    (temps : List (String × Word)) {operand : StackType × String} (member : operand ∈ operands) :
    ∃ word, (((operands.map Prod.snd).zip words).reverse ++ temps).lookup operand.2 = some word ∧
      word.fits operand.1 = true := by
  induction operands generalizing words temps with
  | nil => cases member
  | cons first others ih =>
      obtain - | @⟨word, _, words, _, fits, fit⟩ := fit
      obtain ⟨fresh, distinct⟩ := List.nodup_cons.mp distinct
      simp only [List.map_cons, List.zip_cons_cons, List.reverse_cons, List.append_assoc,
        List.singleton_append]
      rcases List.mem_cons.mp member with rfl | later
      · have absent : ((others.map Prod.snd).zip words).reverse.lookup operand.2 = none := by
          refine List.lookup_eq_none_iff.mpr fun entry declared => ?_
          have among := (List.of_mem_zip (List.mem_reverse.mp declared)).1
          exact bne_iff_ne.mpr (ne_of_mem_of_not_mem among fresh).symm
        exact ⟨word, by simp [List.lookup_append, absent], fits⟩
      · exact ih distinct fit _ later

theorem Sequence.check_iff {checks : Bool} {name : String} {body : List Stmt} :
    Sequence Step machine ((if checks then [.checkNull name] else []) ++ body) flow last ↔
      Sequence Step machine body flow last := by
  cases checks with
  | false => exact Iff.rfl
  | true =>
      rw [if_pos rfl, List.singleton_append,
        Sequence.cons_iff fun _ _ step => (step_checkNull_iff.mp step).1]
      simp [step_checkNull_iff]

end C

namespace Call

open C

variable {call : Call} {type : MethodType} {function : String} {machine last : Machine} {flow : Flow}

theorem run_statements (run : Sequence Step machine (call.statements type function) flow last) :
    flow = .next ∧ last.locals = machine.locals ∧
      ∃ words rest results, machine.stack = words ++ rest ∧
        Word.AllFit words ((call.operands type).map Prod.fst) ∧
        Word.AllFit results (call.result? type).toList ∧ last.stack = results ++ rest ∧
        last.temps = (((call.operands type).map Prod.snd).zip words).reverse ++ machine.temps := by
  obtain ⟨words, rest, stack, fit, run⟩ := Sequence.pops_iff.mp run
  rw [Sequence.check_iff, Sequence.cons_iff fun _ _ step => (step_perform step).1] at run
  obtain ⟨middle, performed, run⟩ := run
  obtain ⟨_, locals, temps, results, returned, left⟩ := step_perform performed
  obtain ⟨stays, same, kept, others⟩ := Sequence.releases run
  exact ⟨stays, kept.trans locals, words, rest, results, stack, fit, returned, same.trans left,
    others.trans temps⟩

theorem exists_run_statements (distinct : ((call.operands type).map Prod.snd).Nodup)
    {words rest results : List Word} (stack : machine.stack = words ++ rest)
    (fit : Word.AllFit words ((call.operands type).map Prod.fst))
    (returned : Word.AllFit results (call.result? type).toList) (function : String) :
    ∃ last, Sequence Step machine (call.statements type function) .next last ∧
      last.stack = results ++ rest := by
  obtain ⟨middle, performed, temps, left⟩ := exists_step_perform returned
    (machine.taking (call.operands type) words rest) { function, args := call.passed type }
  have held : ∀ operand ∈ (call.operands type).filter (·.1 = .object), ∃ word,
      middle.temps.lookup operand.2 = some word ∧ word.isReference = true := by
    intro operand member
    obtain ⟨member, object⟩ := List.mem_filter.mp member
    obtain ⟨word, found, fits⟩ := lookup_taken distinct fit machine.temps member
    refine ⟨word, by rw [temps]; exact found, ?_⟩
    simpa [Word.fits, of_decide_eq_true object] using fits
  obtain ⟨last, released⟩ := Sequence.exists_releases held
  refine ⟨last, ?_, ?_⟩
  · exact Sequence.pops_iff.mpr
      ⟨words, rest, stack, fit, Sequence.check_iff.mpr (.cons performed released)⟩
  · rw [(Sequence.releases released).2.1, left]
    rfl

theorem run_items_iff {items : List Item}
    (shape : items = if call.operands type = [] then (call.statements type function).map .stmt
      else [.block (call.statements type function)]) :
    C.Run machine items flow last ↔
      ∃ inner, Sequence Step machine (call.statements type function) flow inner ∧
        last = inner.closeBlock machine.temps.length := by
  subst shape
  split
  next none =>
    have closed {inner : Machine}
        (run : Sequence Step machine (call.statements type function) flow inner) :
        inner.closeBlock machine.temps.length = inner := by
      obtain ⟨_, _, words, _, _, _, _, _, _, temps⟩ := run_statements run
      have same : inner.temps = machine.temps := by simpa [none] using temps
      rw [Machine.closeBlock, ← same, Nat.sub_self, List.drop_zero]
    rw [run_stmts_iff]
    constructor
    · intro run
      exact ⟨last, run, (closed run).symm⟩
    · rintro ⟨inner, run, rfl⟩
      rwa [closed run]
  next => exact run_block_iff

end Call

/-- A lowered call, what is printed for it, and the stacks that its runs lead from and to. -/
theorem call_consumes_operands {context : MethodContext} {call : Call}
    {items : List C.Item} {symbol : Option String}
    (invoked : Emission.invoke context call = .ok (items, symbol))
    (other : Emission.isArrayClone call = false) :
    ∃ type, MethodType.parse call.descriptor = .ok type ∧
      (items = if call.operands type = [] then
          (call.statements type (Emission.callTarget context.index call type)).map .stmt
        else [.block (call.statements type (Emission.callTarget context.index call type))]) ∧
      (C.bodyText items =
        let lines := call.lines type (Emission.callTarget context.index call type)
        if call.operands type = [] then String.join (lines.map ("    " ++ · ++ "\n"))
        else "    \x7b\n" ++ String.join (lines.map ("        " ++ · ++ "\n")) ++ "    \x7d\n") ∧
      ((call.operands type).map Prod.snd).Nodup ∧
      (∀ (machine : C.Machine) (flow : C.Flow) (stack : List C.Word),
        (∃ last, C.Run machine items flow last ∧ last.stack = stack) ↔
          flow = .next ∧ ∃ words rest results, machine.stack = words ++ rest ∧
            C.Word.AllFit words ((call.operands type).map Prod.fst) ∧
            C.Word.AllFit results (call.result? type).toList ∧ stack = results ++ rest) ∧
      ∀ (machine last : C.Machine) (flow : C.Flow), C.Run machine items flow last →
        last.locals = machine.locals ∧ last.temps = machine.temps := by
  obtain ⟨type, given, parsed, made, rfl⟩ := Emission.invoke_eq_ok invoked
  have shape := Emission.invokeItems_eq made other context.index type
  have distinct := Emission.nodup_operands made type
  refine ⟨type, parsed, shape, ?_, distinct, ?_, ?_⟩
  · rw [shape]
    split
    · rw [C.bodyText_stmts, Call.text_statements]
    · rw [C.bodyText_block, Call.text_statements]
  · intro machine flow stack
    constructor
    · rintro ⟨last, run, rfl⟩
      obtain ⟨inner, body, rfl⟩ := (Call.run_items_iff shape).mp run
      obtain ⟨stays, _, words, rest, results, before, fit, returned, left, _⟩ :=
        Call.run_statements body
      exact ⟨stays, words, rest, results, before, fit, returned, left⟩
    · rintro ⟨rfl, words, rest, results, before, fit, returned, rfl⟩
      obtain ⟨inner, body, left⟩ := Call.exists_run_statements distinct before fit returned _
      exact ⟨_, (Call.run_items_iff shape).mpr ⟨inner, body, rfl⟩, left⟩
  · intro machine last flow run
    obtain ⟨inner, body, rfl⟩ := (Call.run_items_iff shape).mp run
    obtain ⟨_, locals, words, _, _, _, _, _, _, temps⟩ := Call.run_statements body
    exact ⟨locals, by simp [C.Machine.closeBlock, temps]⟩

def Sample.joining : Call :=
  { dispatch := .virtual, owner := "t/Main", name := "join"
    descriptor := "(JLt/Text;Lt/Text;I)Lt/Text;", literalArgs := [none, some "JAVA_NULL", none, none]
    receiver := .stack, discardResult := false }

def Sample.joiningContext : MethodContext :=
  { list := .empty, header := Sample.method.header "t/Main", index := .empty, objectLocals := []
    labels := [] }

theorem call_consumes_operands_sample :
    ∃ items symbol, Emission.invoke Sample.joiningContext Sample.joining = .ok (items, symbol) ∧
      Emission.isArrayClone Sample.joining = false ∧
      C.bodyText items =
        "    \x7b\n        JAVA_INT __arg3 = POP_INT();\n        JAVA_OBJECT __arg2 = POP_OBJ();\n" ++
        "        JAVA_LONG __arg0 = POP_LONG();\n        JAVA_OBJECT __receiver = POP_OBJ();\n" ++
        "        CHECK_NULL(__receiver);\n        PUSH_OBJ(RETAIN(virtual_t_Main_join___long_t_Text_" ++
        "t_Text_int_R_t_Text(threadStateData, __receiver, __arg0, JAVA_NULL, __arg2, __arg3)));\n" ++
        "        RELEASE(__arg2);\n        RELEASE(__receiver);\n    \x7d\n" ∧
      ∀ machine : C.Machine, machine.stack =
          [.number 1, .reference (some 5), .number 2, .reference (some 6), .number 9] →
        ∃ last, C.Run machine items .next last ∧ last.stack = [.reference none, .number 9] := by
  have parsed : MethodType.parse Sample.joining.descriptor =
      .ok ⟨[.primitive .long, .reference "t/Text", .reference "t/Text", .primitive .int],
        some (.reference "t/Text")⟩ := by decide +kernel
  have other : Emission.isArrayClone Sample.joining = false := by decide
  have accepted : (Emission.invoke Sample.joiningContext Sample.joining).toBool = true := by
    decide +kernel
  cases invoked : Emission.invoke Sample.joiningContext Sample.joining with
  | error => rw [invoked] at accepted; cases accepted
  | ok made =>
      obtain ⟨type, again, _, text, _, reached, _⟩ := call_consumes_operands invoked other
      obtain rfl := Except.ok.inj (parsed.symm.trans again)
      refine ⟨made.1, made.2, rfl, other, text.trans (by decide +kernel), fun machine stack => ?_⟩
      let words : List C.Word := [.number 1, .reference (some 5), .number 2, .reference (some 6)]
      refine (reached machine .next _).mpr
        ⟨rfl, words, [.number 9], [.reference none], stack, ?_, ?_, rfl⟩
      · exact .cons rfl (.cons rfl (.cons rfl (.cons rfl .nil)))
      · exact .cons rfl .nil

end BytecodeToC
