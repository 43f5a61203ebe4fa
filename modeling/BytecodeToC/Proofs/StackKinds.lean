import BytecodeToC.Proofs.CallOperands
import BytecodeToC.Proofs.Macros

/-!
Code that cannot get stuck. Of a machine only the kinds are known of the words on top of its stack, of
its locals and of the variables of the block. Commands are checked against that without running them.
What passes the check can be run on every machine of the description, and leads to one of the
description that the check ends with.
-/

namespace BytecodeToC

namespace C

structure StackFrame where
  stack : List StackType := []
  temps : List (String × StackType) := []
deriving DecidableEq, Repr

namespace StackFrame

def push (frame : StackFrame) (type : StackType) : StackFrame := { frame with stack := type :: frame.stack }

def declare (frame : StackFrame) (type : StackType) (name : String) : StackFrame :=
  { frame with temps := (name, type) :: frame.temps }

def pop? (frame : StackFrame) (type : StackType) : Option StackFrame :=
  match frame.stack with
  | [] => none
  | top :: rest => if top = type then some { frame with stack := rest } else none

def popNumber? (frame : StackFrame) (pops : Bool) : Option StackFrame :=
  if pops then frame.pop? .int else some frame

def leave? (exit : List StackType) (frame : StackFrame) : Option StackFrame :=
  if frame.stack = exit then some frame else none

def kind? (locals : List (String × StackType)) (frame : StackFrame) (name : String) : Option StackType :=
  if isTemporary name then frame.temps.lookup name else locals.lookup name

def eval? (locals : List (String × StackType)) (type : StackType) (frame : StackFrame) :
    Source → Option StackFrame
  | .value _ | .call _ => some frame
  | .held name => if frame.kind? locals name = some type then some frame else none
  | .fresh value => if type = .object then frame.popNumber? value.popsNumber else none
  | .popped kind => if kind = type then frame.pop? kind else none
  | .retained source => eval? locals type frame source

def assign? (locals : List (String × StackType)) (frame : StackFrame) (target : String) (source : Source) :
    Option StackFrame :=
  if isNumberElement target then
    match source with
    | .held _ => some frame
    | _ => none
  else if isTemporary target then none
  else (locals.lookup target).bind fun type => frame.eval? locals type source

def command? (locals : List (String × StackType)) (exit : List StackType) (frame : StackFrame) :
    Command → Option StackFrame
  | .push type source => (frame.eval? locals type source).map (·.push type)
  | .declare type name source =>
    if isTemporary name then (frame.eval? locals type source).map (·.declare type name) else none
  | .declareFlag name _ _ _ => if isTemporary name then some (frame.declare .int name) else none
  | .assign target source => frame.assign? locals target source
  | .increment name _ =>
    if isTemporary name = false ∧ locals.lookup name = some .int then some frame else none
  | .retain name => frame.eval? locals .object (.held name)
  | .release source => frame.eval? locals .object source
  | .runOn _ (.popped type) => frame.pop? type
  | .runOn _ _ | .shuffle _ => none
  | .notice _ | .run _ => some frame
  | .jump _ | .returnVoid | .returnNumber _ => frame.leave? exit
  | .branch test _ => (frame.popNumber? test.popsNumber).bind (leave? exit)
  | .returnObject name => (frame.eval? locals .object (.held name)).bind (leave? exit)
  | .throw source => (frame.eval? locals .object source).bind (leave? exit)

def stmt? (locals : List (String × StackType)) (exit : List StackType) (frame : StackFrame)
    (single : Stmt) : Option StackFrame :=
  frame.command? locals exit single.command

def item? (locals : List (String × StackType)) (exit : List StackType) (frame : StackFrame) :
    Item → Option StackFrame
  | .stmt single => frame.stmt? locals exit single
  | .block body =>
    (body.foldlM (stmt? locals exit) frame).map fun inner => { inner with temps := [] }
  | .switch _ _ => (frame.pop? .int).bind (leave? exit)
  | .anchor _ => some frame

/-- A machine that a frame describes, above the words `rest` of its stack. -/
structure Fits (locals : List (String × StackType)) (rest : List Word) (frame : StackFrame)
    (machine : Machine) : Prop where
  locals : machine.locals.map kind = locals.map fun entry => (entry.1, decide (entry.2 = .object))
  temporary : ∀ entry ∈ machine.temps, isTemporary entry.1 = true
  stack : ∃ words, machine.stack = words ++ rest ∧ Word.AllFit words frame.stack
  temps : ∀ name type, frame.temps.lookup name = some type →
    ∃ word, machine.temps.lookup name = some word ∧ word.fits type = true

end StackFrame

theorem lookup_of_kinds {entries : List (String × Word)} {locals : List (String × StackType)}
    (same : entries.map kind = locals.map fun entry => (entry.1, decide (entry.2 = .object)))
    {name : String} {type : StackType} (found : locals.lookup name = some type) :
    ∃ word, entries.lookup name = some word ∧ word.fits type = true := by
  induction entries generalizing locals with
  | nil =>
      cases locals with
      | nil => cases found
      | cons => simp at same
  | cons entry others ih =>
      cases locals with
      | nil => cases found
      | cons first more =>
          simp only [List.map_cons, List.cons.injEq, kind, Prod.mk.injEq] at same
          obtain ⟨⟨names, kinds⟩, rest⟩ := same
          rw [List.lookup_cons] at found ⊢
          rw [← names] at found
          split at found
          next here =>
            obtain rfl := Option.some.inj found
            exact ⟨entry.2, by simp, by simp [Word.fits, kinds]⟩
          next there =>
            obtain ⟨word, known, fits⟩ := ih rest found
            exact ⟨word, by simpa [there] using known, fits⟩

theorem Word.exists_fits (type : StackType) : ∃ word : Word, word.fits type = true := by
  by_cases object : type = .object
  · exact ⟨.reference none, by simp [Word.fits, Word.isReference, object]⟩
  · exact ⟨.number 0, by simp [Word.fits, Word.isReference, object]⟩

theorem Machine.write?_stack {machine next : Machine} {text : String} {word : Word}
    (written : machine.write? text word = some next) : next.stack = machine.stack := by
  unfold write? at written
  repeat' split at written
  · cases written
  · cases written
  · cases written
    rfl
  · cases written
    rfl
  · obtain ⟨cell, _, rfl⟩ := Option.map_eq_some_iff.mp written
    rfl

namespace StackFrame

variable {locals : List (String × StackType)} {exit : List StackType} {rest : List Word}
  {frame after : StackFrame} {machine next : Machine}

theorem Fits.congr (fits : frame.Fits locals rest machine) (same : next.locals = machine.locals)
    (temps : next.temps = machine.temps) (stack : next.stack = machine.stack) :
    frame.Fits locals rest next := by
  obtain ⟨shape, temporary, words, known⟩ := fits
  exact ⟨same ▸ shape, temps ▸ temporary, stack ▸ words, temps ▸ known⟩

theorem Fits.push (fits : frame.Fits locals rest machine) {word : Word} {type : StackType}
    (kind : word.fits type = true) : (frame.push type).Fits locals rest (machine.push word) := by
  obtain ⟨shape, temporary, ⟨words, stack, all⟩, known⟩ := fits
  exact ⟨shape, temporary, ⟨word :: words, by simp [Machine.push, stack], .cons kind all⟩, known⟩

theorem Fits.pop (fits : frame.Fits locals rest machine) {type : StackType}
    (popped : frame.pop? type = some after) :
    ∃ word below, machine.stack = word :: below ∧ word.fits type = true ∧
      after.Fits locals rest (machine.withStack below) := by
  obtain ⟨shape, temporary, ⟨words, stack, all⟩, known⟩ := fits
  unfold pop? at popped
  split at popped
  next => cases popped
  next top others kinds =>
    split at popped
    next same =>
      cases popped
      rw [kinds, same] at all
      obtain - | @⟨word, _, more, _, kind, all⟩ := all
      exact ⟨word, more ++ rest, stack, kind, shape, temporary, ⟨more, rfl, all⟩, known⟩
    next => cases popped

theorem Fits.popNumber (fits : frame.Fits locals rest machine) {pops : Bool}
    (popped : frame.popNumber? pops = some after) :
    ∃ left, Leaves pops machine.stack left ∧ after.Fits locals rest (machine.withStack left) ∧
      ∀ other, Leaves pops machine.stack other → other = left := by
  cases pops with
  | false =>
      cases popped
      refine ⟨machine.stack, rfl, fits.congr rfl rfl rfl, fun other same => ?_⟩
      exact (show machine.stack = other from same).symm
  | true =>
      obtain ⟨word, below, stack, kind, fits⟩ := fits.pop popped
      cases word with
      | reference object => simp [Word.fits, Word.isReference] at kind
      | number value =>
          refine ⟨below, ⟨value, stack⟩, fits, ?_⟩
          rintro other ⟨again, same⟩
          rw [stack] at same
          exact (List.cons.inj same).2.symm

theorem Fits.read (fits : frame.Fits locals rest machine) {name : String} {type : StackType}
    (known : frame.kind? locals name = some type) :
    ∃ word, machine.read? name = some word ∧ word.fits type = true := by
  unfold kind? at known
  split at known
  next =>
    obtain ⟨word, found, kind⟩ := fits.temps name type known
    exact ⟨word, by simp [Machine.read?, Machine.named?, found], kind⟩
  next fixed =>
    obtain ⟨word, found, kind⟩ := lookup_of_kinds fits.locals known
    have hidden := Machine.lookup_temps_eq_none fits.temporary (by simpa using fixed)
    exact ⟨word, by simp [Machine.read?, Machine.named?, found, hidden], kind⟩

theorem Fits.write (fits : frame.Fits locals rest machine) {name : String} {type : StackType}
    (fixed : isTemporary name = false) (known : locals.lookup name = some type) {word : Word}
    (kind : word.fits type = true) : ∃ next, machine.write? name word = some next := by
  obtain ⟨old, found, before⟩ := lookup_of_kinds fits.locals known
  have hidden := Machine.lookup_temps_eq_none fits.temporary fixed
  have read : machine.read? name = some old := by
    simp [Machine.read?, Machine.named?, found, hidden]
  have same : word.isReference = old.isReference := by
    by_cases object : type = .object
    · simp_all [Word.fits]
    · rw [Word.not_isReference_of_fits kind object, Word.not_isReference_of_fits before object]
  exact ⟨{ machine with locals := update name word machine.locals },
    by simp [Machine.write?, read, same, hidden, found]⟩

theorem Fits.written (fits : frame.Fits locals rest machine) {name : String}
    (fixed : isTemporary name = false) {word : Word}
    (written : machine.write? name word = some next) : frame.Fits locals rest next := by
  obtain ⟨_, _, _, stores⟩ := Machine.write?_eq_some written fits.temporary fixed
  obtain ⟨shape, temporary, words, known⟩ := fits
  exact ⟨stores.kinds.trans shape, stores.temps ▸ temporary,
    Machine.write?_stack written ▸ words, stores.temps ▸ known⟩

theorem Fits.declare (fits : frame.Fits locals rest machine) {name : String} {type : StackType}
    (temporary : isTemporary name = true) {word : Word} (kind : word.fits type = true) :
    (frame.declare type name).Fits locals rest (machine.declare name word) := by
  refine ⟨fits.locals, List.forall_mem_cons.mpr ⟨temporary, fits.temporary⟩, fits.stack, ?_⟩
  intro other expected found
  simp only [StackFrame.declare, Machine.declare, List.lookup_cons] at found ⊢
  split at found
  next =>
    obtain rfl := Option.some.inj found
    exact ⟨word, rfl, kind⟩
  next => exact fits.temps other expected found

def Exits (locals : List (String × StackType)) (exit : List StackType) (rest : List Word)
    (_ : Flow) (machine : Machine) : Prop :=
  Fits locals rest { stack := exit } machine

theorem Fits.leave (fits : frame.Fits locals rest machine) (left : frame.leave? exit = some after)
    (flow : Flow) : after.Fits locals rest machine ∧ Exits locals exit rest flow machine := by
  unfold leave? at left
  split at left
  next same =>
    cases left
    refine ⟨fits, fits.locals, fits.temporary, same ▸ fits.stack, ?_⟩
    intro name type found
    cases found
  next => cases left

theorem Fits.eval (fits : frame.Fits locals rest machine) {type : StackType} {source : Source}
    (passed : frame.eval? locals type source = some after) :
    (∃ word next, Eval machine source word next ∧ word.fits type = true) ∧
      ∀ word next, Eval machine source word next → after.Fits locals rest next := by
  induction source with
  | value text =>
      cases passed
      obtain ⟨word, kind⟩ := Word.exists_fits type
      refine ⟨⟨word, machine, .value, kind⟩, fun word next ran => ?_⟩
      cases ran
      exact fits
  | held name =>
      rw [eval?] at passed
      split at passed
      next known =>
        cases passed
        obtain ⟨word, found, kind⟩ := fits.read known
        refine ⟨⟨word, machine, .held found, kind⟩, fun word next ran => ?_⟩
        cases ran
        exact fits
      next => cases passed
  | call application =>
      cases passed
      obtain ⟨word, kind⟩ := Word.exists_fits type
      refine ⟨⟨word, _, .call (Heap.settles_refl _), kind⟩, fun word next ran => ?_⟩
      cases ran
      exact fits.congr rfl rfl rfl
  | fresh value =>
      rw [eval?] at passed
      split at passed
      next object =>
        obtain ⟨left, leaves, fits, only⟩ := fits.popNumber passed
        refine ⟨⟨.reference none, _, .fresh leaves (Heap.settles_refl _), ?_⟩, fun word next ran => ?_⟩
        · simp [Word.fits, Word.isReference, object]
        · cases ran with
          | fresh again =>
              cases only _ again
              exact fits.congr rfl rfl rfl
      next => cases passed
  | popped kind =>
      rw [eval?] at passed
      split at passed
      next same =>
        obtain ⟨top, below, stack, kind, fits⟩ := fits.pop passed
        refine ⟨⟨top, _, .popped stack kind, same ▸ kind⟩, fun word next ran => ?_⟩
        cases ran with
        | popped again =>
            rw [stack] at again
            cases again
            exact fits
      next => cases passed
  | retained source ih =>
      obtain ⟨⟨word, next, ran, kind⟩, every⟩ := ih passed
      refine ⟨⟨word, _, .retained ran, kind⟩, fun word next ran => ?_⟩
      cases ran with
      | retained inner => exact (every _ _ inner).congr rfl rfl rfl

theorem Fits.assign (fits : frame.Fits locals rest machine) {target : String} {source : Source}
    (passed : frame.assign? locals target source = some after) :
    (∃ flow next, Exec machine (.assign target source) flow next) ∧
      ∀ flow next, Exec machine (.assign target source) flow next →
        flow = .next ∧ after.Fits locals rest next := by
  unfold assign? at passed
  split at passed
  next element =>
    split at passed
    next value =>
      cases passed
      refine ⟨⟨_, _, .storeNumber element⟩, fun flow next ran => ?_⟩
      cases ran with
      | assign place => simp [element] at place
      | storeNumber => exact ⟨rfl, fits⟩
    next => cases passed
  next place =>
    split at passed
    next => cases passed
    next fixed =>
      have fixed : isTemporary target = false := by simpa using fixed
      obtain ⟨type, known, passed⟩ := Option.bind_eq_some_iff.mp passed
      obtain ⟨⟨word, next, evaluated, kind⟩, every⟩ := fits.eval passed
      obtain ⟨last, written⟩ := (every _ _ evaluated).write fixed known kind
      refine ⟨⟨_, _, .assign (by simpa using place) evaluated written⟩, fun flow next ran => ?_⟩
      cases ran with
      | assign _ evaluated written => exact ⟨rfl, (every _ _ evaluated).written fixed written⟩
      | storeNumber element => exact absurd element place

/-- What passes the check can be run, and every run of it leads to the frame that the check gives or
leaves with the kinds of the exit. -/
def Predicts (locals : List (String × StackType)) (exit : List StackType) (rest : List Word) {α : Type}
    (check : StackFrame → α → Option StackFrame) (step : Machine → α → Flow → Machine → Prop) : Prop :=
  ∀ ⦃frame after : StackFrame⦄ ⦃machine : Machine⦄ ⦃action : α⦄, frame.Fits locals rest machine →
    check frame action = some after →
    (∃ flow next, step machine action flow next) ∧
      ∀ flow next, step machine action flow next →
        (flow = .next → after.Fits locals rest next) ∧
          (flow ≠ .next → Exits locals exit rest flow next)

theorem predicts_command : Predicts locals exit rest (command? locals exit) Exec := by
  intro frame after machine command fits passed
  cases command with
  | push type source =>
      obtain ⟨left, valued, rfl⟩ := Option.map_eq_some_iff.mp passed
      obtain ⟨⟨word, next, evaluated, kind⟩, every⟩ := fits.eval valued
      refine ⟨⟨_, _, .push evaluated kind⟩, fun flow next ran => ?_⟩
      cases ran with
      | push evaluated kind => exact ⟨fun _ => (every _ _ evaluated).push kind, by simp⟩
  | declare type name source =>
      rw [command?] at passed
      split at passed
      next temporary =>
        obtain ⟨left, valued, rfl⟩ := Option.map_eq_some_iff.mp passed
        obtain ⟨⟨word, next, evaluated, kind⟩, every⟩ := fits.eval valued
        refine ⟨⟨_, _, .declare evaluated kind⟩, fun flow next ran => ?_⟩
        cases ran with
        | declare evaluated kind =>
            exact ⟨fun _ => (every _ _ evaluated).declare temporary kind, by simp⟩
      next => cases passed
  | declareFlag name test left right =>
      rw [command?] at passed
      split at passed
      next temporary =>
        cases passed
        refine ⟨⟨_, _, @Exec.declareFlag machine name test left right 0⟩, fun flow next ran => ?_⟩
        cases ran
        exact ⟨fun _ => fits.declare temporary rfl, by simp⟩
      next => cases passed
  | assign target source =>
      obtain ⟨runs, every⟩ := fits.assign passed
      refine ⟨runs, fun flow next ran => ?_⟩
      obtain ⟨rfl, fits⟩ := every flow next ran
      exact ⟨fun _ => fits, by simp⟩
  | increment name delta =>
      rw [command?] at passed
      split at passed
      next int =>
        cases passed
        obtain ⟨last, written⟩ := fits.write int.1 int.2 (show (Word.number 0).fits .int = true from rfl)
        refine ⟨⟨_, _, .increment written⟩, fun flow next ran => ?_⟩
        cases ran with
        | increment written => exact ⟨fun _ => fits.written int.1 written, by simp⟩
      next => cases passed
  | retain name =>
      obtain ⟨⟨word, next, evaluated, kind⟩, every⟩ := fits.eval passed
      cases evaluated with
      | held found =>
          refine ⟨⟨_, _, .retain found (by simpa [Word.fits] using kind)⟩, fun flow next ran => ?_⟩
          cases ran with
          | retain found => exact ⟨fun _ => (every _ _ (.held found)).congr rfl rfl rfl, by simp⟩
  | release source =>
      obtain ⟨⟨word, next, evaluated, kind⟩, every⟩ := fits.eval passed
      refine ⟨⟨_, _, .release evaluated (by simpa [Word.fits] using kind)⟩, fun flow next ran => ?_⟩
      cases ran with
      | release evaluated => exact ⟨fun _ => (every _ _ evaluated).congr rfl rfl rfl, by simp⟩
  | notice given =>
      cases passed
      refine ⟨⟨_, _, .notice⟩, fun flow next ran => ?_⟩
      cases ran
      exact ⟨fun _ => fits, by simp⟩
  | run application =>
      cases passed
      refine ⟨⟨_, _, .run (Heap.settles_refl _)⟩, fun flow next ran => ?_⟩
      cases ran
      exact ⟨fun _ => fits.congr rfl rfl rfl, by simp⟩
  | runOn function source =>
      cases source with
      | popped type =>
          obtain ⟨top, below, stack, kind, left⟩ := fits.pop passed
          refine ⟨⟨_, _, .runOn (.popped stack kind) (Heap.settles_refl _)⟩, fun flow next ran => ?_⟩
          cases ran with
          | runOn evaluated =>
              cases evaluated with
              | popped again =>
                  rw [stack] at again
                  cases again
                  exact ⟨fun _ => left.congr rfl rfl rfl, by simp⟩
      | _ => cases passed
  | shuffle kind => cases passed
  | jump destination =>
      refine ⟨⟨_, _, .jump⟩, fun flow next ran => ?_⟩
      cases ran
      exact ⟨by simp, fun _ => (fits.leave passed _).2⟩
  | branch test destination =>
      obtain ⟨less, popped, left⟩ := Option.bind_eq_some_iff.mp passed
      obtain ⟨below, leaves, fits, only⟩ := fits.popNumber popped
      refine ⟨⟨_, _, .branch leaves (.inl rfl)⟩, fun flow next ran => ?_⟩
      cases ran with
      | branch again =>
          cases only _ again
          exact ⟨fun _ => (fits.leave left .next).1, fun _ => (fits.leave left flow).2⟩
  | returnVoid =>
      refine ⟨⟨_, _, .returnVoid⟩, fun flow next ran => ?_⟩
      cases ran
      exact ⟨by simp, fun _ => (fits.leave passed _).2⟩
  | returnNumber name =>
      refine ⟨⟨_, _, .returnNumber⟩, fun flow next ran => ?_⟩
      cases ran
      exact ⟨by simp, fun _ => (fits.leave passed _).2⟩
  | returnObject name =>
      obtain ⟨held, passed, left⟩ := Option.bind_eq_some_iff.mp passed
      obtain ⟨⟨word, next, evaluated, kind⟩, every⟩ := fits.eval passed
      cases evaluated with
      | held found =>
          refine ⟨⟨_, _, .returnObject found (by simpa [Word.fits] using kind)⟩, fun flow next ran => ?_⟩
          cases ran with
          | returnObject found =>
              have fits := (every _ _ (.held found)).leave left .returns
              exact ⟨by simp, fun _ => fits.2.congr rfl rfl rfl⟩
  | throw source =>
      obtain ⟨held, passed, left⟩ := Option.bind_eq_some_iff.mp passed
      obtain ⟨⟨word, next, evaluated, kind⟩, every⟩ := fits.eval passed
      refine ⟨⟨_, _, .throw evaluated (by simpa [Word.fits] using kind)⟩, fun flow next ran => ?_⟩
      cases ran with
      | throw evaluated =>
          have fits := (every _ _ evaluated).leave left .throws
          exact ⟨by simp, fun _ => fits.2.congr rfl rfl rfl⟩

theorem predicts_sequence {α : Type} {check : StackFrame → α → Option StackFrame}
    {step : Machine → α → Flow → Machine → Prop} (each : Predicts locals exit rest check step) :
    Predicts locals exit rest (fun frame actions => actions.foldlM check frame) (Sequence step) := by
  intro frame after machine actions fits passed
  refine ⟨?_, fun flow next ran => @Sequence.keeps α StackFrame step check (Fits locals rest)
    (Exits locals exit rest) (fun fits passed here => (each fits passed).2 _ _ here)
    frame after machine next actions flow fits passed ran⟩
  induction actions generalizing frame machine with
  | nil => exact ⟨_, _, .nil⟩
  | cons action others ih =>
      simp only [List.foldlM_cons] at passed
      obtain ⟨middle, first, later⟩ := Option.bind_eq_some_iff.mp passed
      obtain ⟨⟨flow, next, ran⟩, every⟩ := each fits first
      by_cases goes : flow = .next
      · obtain ⟨last, finish, rest⟩ := ih ((every flow next ran).1 goes) later
        exact ⟨last, finish, .cons (goes ▸ ran) rest⟩
      · exact ⟨flow, next, .leave ran goes⟩

theorem Fits.closeBlock (fits : frame.Fits locals rest machine) (count : Nat) :
    Fits locals rest { frame with temps := [] } (machine.closeBlock count) := by
  refine ⟨fits.locals, fun entry member => fits.temporary entry (List.mem_of_mem_drop member),
    fits.stack, ?_⟩
  intro name type found
  cases found

theorem Fits.choose (fits : frame.Fits locals rest machine) {cases : List (Int32 × Jump)}
    {default : Option Jump} {step : Machine → Stmt → Flow → Machine → Prop}
    (passed : frame.item? locals exit (.switch cases default) = some after) :
    (∃ flow next, ItemStep step machine (.switch cases default) flow next) ∧
      ∀ flow next, ItemStep step machine (.switch cases default) flow next →
        (flow = .next → after.Fits locals rest next) ∧
          (flow ≠ .next → Exits locals exit rest flow next) := by
  obtain ⟨less, popped, left⟩ := Option.bind_eq_some_iff.mp passed
  obtain ⟨word, below, stack, kind, fits⟩ := fits.pop popped
  cases word with
  | reference object => simp [Word.fits, Word.isReference] at kind
  | number value =>
      constructor
      · cases default with
        | none => exact ⟨_, _, .fallThrough stack⟩
        | some destination =>
            exact ⟨.jumps destination, _, .choose stack (by simp)⟩
      · intro flow next ran
        cases ran with
        | choose again =>
            rw [stack] at again
            cases again
            exact ⟨by simp, fun _ => (fits.leave left _).2⟩
        | fallThrough again =>
            rw [stack] at again
            cases again
            exact ⟨fun _ => (fits.leave left .next).1, by simp⟩

theorem predicts_item : Predicts locals exit rest (item? locals exit)
    (ItemStep fun machine single flow next => Exec machine single.command flow next) := by
  intro frame after machine item fits passed
  have statement : Predicts locals exit rest (stmt? locals exit)
      (fun machine single flow next => Exec machine single.command flow next) :=
    fun _ _ _ _ fits passed => predicts_command fits passed
  cases item with
  | stmt single =>
      obtain ⟨⟨flow, next, ran⟩, every⟩ := statement fits passed
      refine ⟨⟨flow, next, .stmt ran⟩, fun flow next ran => ?_⟩
      cases ran with
      | stmt ran => exact every flow next ran
  | block body =>
      obtain ⟨inner, checked, rfl⟩ := Option.map_eq_some_iff.mp passed
      obtain ⟨⟨flow, next, ran⟩, every⟩ := predicts_sequence statement fits checked
      refine ⟨⟨flow, _, .block ran⟩, fun flow next ran => ?_⟩
      cases ran with
      | block ran =>
          obtain ⟨goes, leaves⟩ := every _ _ ran
          exact ⟨fun next => (goes next).closeBlock _, fun other => (leaves other).closeBlock _⟩
  | switch cases default => exact fits.choose passed
  | anchor label =>
      cases passed
      refine ⟨⟨_, _, .anchor⟩, fun flow next ran => ?_⟩
      cases ran
      exact ⟨fun _ => fits, by simp⟩

def Types (locals : List (String × StackType)) (takes gives : List StackType) (items : List Item) :
    Prop :=
  items.foldlM (item? locals gives) { stack := takes } = some { stack := gives }

/-- Progress: from a stack with words of the kinds that are taken the printed commands can be run, and
every run of them ends with words of the kinds that are given in their place. -/
theorem Types.runs {takes gives : List StackType} {items : List Item}
    (typed : Types locals takes gives items) (fits : Fits locals rest { stack := takes } machine) :
    (∃ flow next, PrintedRun machine items flow next) ∧
      ∀ flow next, PrintedRun machine items flow next →
        ∃ results, next.stack = results ++ rest ∧ Word.AllFit results gives := by
  obtain ⟨runs, every⟩ := predicts_sequence predicts_item fits typed
  refine ⟨runs, fun flow next ran => ?_⟩
  obtain ⟨goes, leaves⟩ := every flow next ran
  by_cases here : flow = .next
  · exact (goes here).stack
  · exact (leaves here).stack

end StackFrame

end C

end BytecodeToC
