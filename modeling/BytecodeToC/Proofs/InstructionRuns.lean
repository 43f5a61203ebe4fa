import BytecodeToC.Proofs.StackEffects

/-!
Lowered instructions as runs of what is printed for them. Where the operand stack holds what an
instruction takes, its code can be run, and it puts what the instruction gives in that place. Before
and after, every slot of the stack, every object local and every element of an array of objects has
exactly one reference.
-/

namespace BytecodeToC

namespace Emission

open C C.StackFrame

def isStill : Stmt → Bool
  | .checkArrayAccess _ _ | .retain _ | .release _ | .assign _ _ => true
  | _ => false

theorem stack_of_step {machine next : Machine} {single : Stmt} {flow : Flow}
    (step : Step machine single flow next) (still : isStill single = true) :
    next.stack = machine.stack := by
  cases step with
  | assign _ _ written => exact Machine.write?_stack written
  | silent | call | storeNumber | retain | release => rfl
  | _ => cases still

theorem stack_of_sequence {body : List Stmt} (still : ∀ single ∈ body, isStill single = true)
    {machine last : Machine} {flow : Flow} (run : Sequence Step machine body flow last) :
    last.stack = machine.stack := by
  induction run with
  | nil => rfl
  | cons here _ ih =>
      obtain ⟨first, others⟩ := List.forall_mem_cons.mp still
      exact (ih others).trans (stack_of_step here first)
  | leave here _ => exact stack_of_step here (still _ (List.mem_cons_self ..))

theorem write?_element {machine : Machine} {text : String} {old word : Word} {cell : Nat × Int}
    (read : machine.read? text = some old) (same : word.isReference = old.isReference)
    (unnamed : machine.named? text = none) (element : machine.cell? = some cell) :
    machine.write? text word = some (machine.withHeap
      { machine.heap with elements := update cell word machine.heap.elements }) := by
  obtain ⟨absent, undeclared⟩ : machine.temps.lookup text = none ∧
      machine.locals.lookup text = none := by
    simpa [Machine.named?, Option.or_eq_none_iff] using unnamed
  simp [Machine.write?, read, same, absent, undeclared, element]

theorem exists_run_storeObject {machine : Machine} {value : Word} {index : Int} {array : Nat}
    {old : Option Nat} {rest : List Word}
    (stack : machine.stack = value :: .number index :: .reference (some array) :: rest)
    (reference : value.isReference = true) (hidden : machine.named? (elementText .object) = none)
    (found : machine.heap.elements.lookup (array, index) = some (.reference old)) :
    ∃ next, Run machine (arrayStore .object) .next next := by
  let taken : Machine :=
    { machine with
      stack := rest
      temps := ("__array", .reference (some array)) :: ("__index", .number index) ::
        ("__value", value) :: machine.temps }
  have unnamed : taken.named? (elementText .object) = none := hidden
  have read : taken.read? (elementText .object) = some (.reference old) := by
    rw [Machine.read?, unnamed]
    exact found
  have written := @write?_element (taken.retain (.reference old) (-1)) _ _ value (array, index)
    read reference unnamed rfl
  have kind : value.fits .object = true := by simpa [Word.fits] using reference
  have held (name : String) (word : Word) (found : taken.temps.lookup name = some word)
      (machine : Machine) (same : machine.temps = taken.temps) : machine.read? name = some word := by
    simp [Machine.read?, Machine.named?, same, found]
  refine ⟨_, .cons (.block (.cons (.pop stack kind) (.cons (.pop rfl rfl) (.cons (.pop rfl rfl)
    (.cons (.silent rfl) (.cons (.release read rfl) (.cons (.assign rfl ?_ written)
      (.cons (.retain (held "__value" value rfl _ rfl) reference)
        (.cons (.release (held "__value" value rfl _ rfl) reference)
          (.cons (.release (held "__array" _ rfl _ rfl) rfl) .nil)))))))))) .nil⟩
  exact held "__value" value rfl _ rfl

theorem stack_of_storeObject {machine next : Machine} {flow : Flow} {words rest : List Word}
    (stack : machine.stack = words ++ rest) (three : words.length = 3)
    (run : Run machine (arrayStore .object) flow next) : next.stack = rest := by
  obtain ⟨inner, ran, rfl⟩ := run_block_iff.mp run
  let operands : List (StackType × String) :=
    [(.object, "__value"), (.int, "__index"), (.object, "__array")]
  let body : List Stmt :=
    [.checkArrayAccess "__array" "__index", .release (elementText .object),
     .assign (elementText .object) "__value", .retain "__value", .release "__value",
     .release "__array"]
  have ran : Sequence Step machine (operands.map (fun operand => .pop operand.1 operand.2) ++ body)
      flow inner := ran
  obtain ⟨popped, below, before, fit, ran⟩ := Sequence.pops_iff.mp ran
  have same : rest = below :=
    (List.append_inj (stack.symm.trans before) (three.trans fit.length_eq.symm)).2
  rw [same]
  exact stack_of_sequence (by simp [body, isStill]) ran

end Emission

open C Emission

/-- What an instruction relies on besides its operands: its local is declared, and an object is stored
where the array has an element. -/
structure Instr.Ready (instruction : Instr) (locals : List LocalVar) (start : Machine) : Prop where
  declared : ∀ entry ∈ LocalTable.touched? instruction,
    ∃ var ∈ locals, var.slot = entry.1 ∧ var.type = entry.2
  element : ∀ immediate, instruction = .basic ⟨0x53⟩ immediate →
    ∃ value index array old rest,
      start.stack = value :: .number index :: .reference (some array) :: rest ∧
        start.heap.elements.lookup (array, index) = some (.reference old)

def LocalTable.kinds (locals : List LocalVar) : List (String × StackType) :=
  locals.map fun var => (var.name, var.type)

theorem C.Machine.Declares.fits {machine : Machine} {locals : List LocalVar}
    (declared : machine.Declares locals) {words rest : List Word} {types : List StackType}
    (stack : machine.stack = words ++ rest) (fit : Word.AllFit words types) :
    StackFrame.Fits (LocalTable.kinds locals) rest { stack := types } machine := by
  refine ⟨?_, declared.temps, ⟨words, stack, fit⟩, ?_⟩
  · rw [declared.locals]
    simp [LocalTable.shape, LocalTable.kinds, Function.comp_def]
  · intro name type found
    cases found

theorem C.Machine.Declares.unnamed {machine : Machine} {locals : List LocalVar}
    (declared : machine.Declares locals)
    (other : ∀ var ∈ locals, var.name ≠ elementText .object) :
    machine.named? (elementText .object) = none := by
  have absent := lookup_temps_eq_none declared.temps isTemporary_elementText
  have undeclared : machine.locals.lookup (elementText .object) = none := by
    refine List.lookup_eq_none_iff.mpr fun entry member => ?_
    have known := List.mem_map_of_mem (f := kind) member
    rw [declared.locals] at known
    obtain ⟨var, among, same⟩ := List.mem_map.mp known
    have name : var.name = entry.1 := congrArg Prod.fst same
    exact bne_iff_ne.mpr fun equal => other var among (name.trans equal.symm)
  rw [named?, absent, undeclared]
  rfl

/-- Tidy items keep the books of a machine, whatever way a run of them leaves. -/
theorem C.Machine.Declares.settled {machine last : Machine} {locals : List LocalVar}
    (declared : machine.Declares locals) (balanced : machine.Balanced)
    (fixed : ∀ var ∈ locals, isTemporary var.name = false)
    (distinct : (locals.map (·.name)).Nodup) {items : List Item}
    (tidy : Tidy (LocalTable.objectNames locals) items) {flow : Flow}
    (run : PrintedRun machine items flow last) :
    last.Declares locals ∧
      if flow = .returns then last.BalancedWithoutLocals else last.Balanced := by
  have places : ∀ entry ∈ LocalTable.shape locals, isTemporary entry.1 = false := by
    intro entry member
    obtain ⟨var, known, rfl⟩ := List.mem_map.mp member
    exact fixed var known
  have names : ((LocalTable.shape locals).map Prod.fst).Nodup := by
    simpa [LocalTable.shape, Function.comp_def] using distinct
  rw [← objectNames_shape] at tidy
  rw [printedRun_eq] at run
  have settled := run.settled places names tidy declared.locals declared.temps balanced
  exact ⟨⟨settled.locals, settled.temps⟩, settled.balanced⟩

theorem Emission.Performs.runs {locals : List LocalVar} {instruction : Instr} {effect : StackEffect}
    {items : List Item} (performs : Performs (LocalTable.kinds locals) instruction effect items)
    {start : Machine} (declared : start.Declares locals) (ready : instruction.Ready locals start)
    (unnamed : ∀ var ∈ locals, var.name ≠ elementText .object) {words rest : List Word}
    (stack : start.stack = words ++ rest) (fit : Word.AllFit words effect.takes) :
    (∃ flow finish, PrintedRun start items flow finish) ∧
      ∀ flow finish, PrintedRun start items flow finish → ∀ gives, effect.gives = some gives →
        ∃ results, finish.stack = results ++ rest ∧ Word.AllFit results gives := by
  cases performs with
  | checked does =>
      obtain ⟨gives, given, typed⟩ := does
      obtain ⟨runs, every⟩ := typed.runs (declared.fits stack fit)
      refine ⟨runs, fun flow finish ran other same => ?_⟩
      obtain rfl := Option.some.inj (given.symm.trans same)
      exact every flow finish ran
  | shuffles kind is shape =>
      subst is shape
      refine ⟨⟨_, _, .cons (.stmt (.shuffle fun _ => rfl)) .nil⟩, fun _ _ _ gives given => ?_⟩
      cases given
  | stores immediate is effect shape =>
      subst effect shape
      obtain ⟨value, index, array, old, below, top, found⟩ := ready.element immediate is
      rw [printedRun_eq]
      constructor
      · have reference : value.isReference = true := by
          obtain - | ⟨kind, _⟩ := fit
          rw [stack, List.cons_append, List.cons.injEq] at top
          simpa [Word.fits, top.1] using kind
        obtain ⟨finish, ran⟩ := exists_run_storeObject top reference (declared.unnamed unnamed) found
        exact ⟨_, finish, ran⟩
      · intro flow finish ran gives given
        cases given
        exact ⟨[], stack_of_storeObject stack fit.length_eq ran, .nil⟩

def Sample.header : MethodHeader :=
  { owner := "t/Main", name := "run", descriptor := "()Ljava/lang/Object;", isStatic := false
    maxStack := 3, maxLocals := 1 }

end BytecodeToC
