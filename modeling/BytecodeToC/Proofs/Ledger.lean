import BytecodeToC.Proofs.References
import Mathlib.Data.List.Basic

/-!
A ledger for references. While a block runs, some of its variables own a reference that nothing else
accounts for, and some locals or elements have lost theirs and wait for another. The ledger lists both
by name. Statements are checked against it without running them; whatever passes the check keeps the
count of references right on every run.
-/

namespace BytecodeToC

namespace C

/-- The names of variables that the lowering makes up itself begin with two underscores. -/
def isTemporary (name : String) : Bool :=
  match name.toList with
  | '_' :: '_' :: _ => true
  | _ => false

structure Ledger where
  /-- Variables of the block that own a reference, one mention for each reference. -/
  owned : List String := []
  /-- Locals and elements that have lost their reference. -/
  vacant : List String := []
deriving DecidableEq, Repr

namespace Ledger

def empty : Ledger := {}

def take? (ledger : Ledger) (name : String) : Option Ledger :=
  if name ∈ ledger.owned then some { ledger with owned := ledger.owned.erase name } else none

def declare? (ledger : Ledger) (type : StackType) (name : String) : Option Ledger :=
  if isTemporary name ∧ name ∉ ledger.owned ∧ ledger.vacant = [] then
    some (if type = .object then { ledger with owned := name :: ledger.owned } else ledger)
  else none

def release? (ledger : Ledger) (name : String) : Option Ledger :=
  if isTemporary name then ledger.take? name
  else some { ledger with vacant := name :: ledger.vacant }

def assign? (ledger : Ledger) (target value : String) : Option Ledger :=
  if isNumberElement target then some ledger
  else if ledger.vacant = [target] then take? { ledger with vacant := [] } value
  else none

def idle? (ledger : Ledger) : Option Ledger := if ledger.vacant = [] then some ledger else none

def close? (ledger : Ledger) : Option Ledger := if ledger = empty then some empty else none

def return? (objectLocals : List String) (ledger : Ledger) : Option Ledger :=
  if ledger.owned = [] ∧ ledger.vacant.Perm objectLocals then some empty else none

def stmt? (objectLocals : List String) (ledger : Ledger) : Stmt → Option Ledger
  | .pop type name => ledger.declare? type name
  | .setFlag name _ _ _ => ledger.declare? .int name
  | .pushMoved name => ledger.take? name
  | .release name => ledger.release? name
  | .retain name =>
    if isTemporary name then some { ledger with owned := name :: ledger.owned } else none
  | .assign target value => ledger.assign? target value
  | .popInto type name => if type = .object ∨ isTemporary name then none else ledger.idle?
  | .increment name _ => if isTemporary name then none else ledger.idle?
  | .setPopped _ type => if type = .object then none else ledger.idle?
  | .jump _ | .branch _ _ | .throwTop => ledger.close?
  | .returnVoid => ledger.return? objectLocals
  | .returnValue .object name => (ledger.take? name).bind (return? objectLocals)
  | .returnValue _ _ => ledger.return? objectLocals
  | _ => ledger.idle?

def item? (objectLocals : List String) (ledger : Ledger) : Item → Option Ledger
  | .stmt single => ledger.stmt? objectLocals single
  | .block body => (body.foldlM (stmt? objectLocals) ledger).bind close?
  | .switch _ _ => ledger.close?
  | .anchor _ => some ledger

end Ledger

namespace Machine

def inNames (machine : Machine) (object : Nat) (names : List String) : Int :=
  references object (names.filterMap machine.read?)

/-- The references to an object that no slot, local or element and nothing outside accounts for. -/
def surplus (machine : Machine) (object : Nat) : Int :=
  machine.heap.refs object - machine.heap.outside object - machine.onStack object -
    machine.inLocals object - machine.heap.inElements object

end Machine

/-- A ledger is right about a machine whose locals have given names and kinds. -/
structure Ledger.Holds (shape : List (String × Bool)) (ledger : Ledger) (machine : Machine) :
    Prop where
  locals : machine.locals.map kind = shape
  temps : ∀ entry ∈ machine.temps, isTemporary entry.1 = true
  owned : ∀ name ∈ ledger.owned, isTemporary name = true
  vacant : ∀ name ∈ ledger.vacant, isTemporary name = false
  books : ∀ object, machine.surplus object + machine.inNames object ledger.vacant =
    machine.inNames object ledger.owned

structure Settled (shape : List (String × Bool)) (flow : Flow) (machine : Machine) : Prop where
  locals : machine.locals.map kind = shape
  temps : ∀ entry ∈ machine.temps, isTemporary entry.1 = true
  balanced : if flow = .returns then machine.BalancedWithoutLocals else machine.Balanced

namespace Machine

variable {machine : Machine}

@[simp] theorem inNames_nil (machine : Machine) (object : Nat) : machine.inNames object [] = 0 := rfl

theorem inNames_cons {name : String} {word : Word} (found : machine.read? name = some word)
    (object : Nat) (names : List String) :
    machine.inNames object (name :: names) = word.weight object + machine.inNames object names := by
  simp [inNames, found]

theorem inNames_perm (machine : Machine) {first second : List String} (same : first.Perm second)
    (object : Nat) : machine.inNames object first = machine.inNames object second :=
  references_perm (same.filterMap _) object

theorem inNames_congr {other : Machine} {names : List String}
    (same : ∀ name ∈ names, machine.read? name = other.read? name) (object : Nat) :
    machine.inNames object names = other.inNames object names := by
  rw [inNames, inNames, List.filterMap_congr same]

@[simp] theorem surplus_push (word : Word) (object : Nat) :
    (machine.push word).surplus object = machine.surplus object - word.weight object := by
  simp only [surplus, push, onStack, inLocals, references_cons]
  omega

@[simp] theorem surplus_retain (word : Word) (count : Int) (object : Nat) :
    (machine.retain word count).surplus object =
      machine.surplus object + count * word.weight object := by
  simp only [surplus, retain, withHeap, Heap.retain, onStack, inLocals, Heap.inElements]
  omega

@[simp] theorem surplus_handOver (word : Word) (object : Nat) :
    (machine.handOver word).surplus object = machine.surplus object - word.weight object := by
  simp only [surplus, handOver, withHeap, Heap.handOver, onStack, inLocals, Heap.inElements]
  omega

@[simp] theorem surplus_declare (name : String) (word : Word) (object : Nat) :
    (machine.declare name word).surplus object = machine.surplus object := rfl

theorem surplus_withHeap (machine : Machine) {heap : Heap} (settles : machine.heap.Settles heap)
    (object : Nat) :
    (machine.withHeap heap).surplus object = machine.surplus object := by
  have same := settles object
  simp only [surplus, withHeap, onStack, inLocals]
  omega

theorem surplus_withStack {rest : List Word} {word : Word} (top : machine.stack = word :: rest)
    (object : Nat) :
    (machine.withStack rest).surplus object = machine.surplus object + word.weight object := by
  simp only [surplus, withStack, onStack, inLocals, top, references_cons]
  omega

theorem surplus_of_leaves {popsNumber : Bool} {rest : List Word}
    (leaves : Leaves popsNumber machine.stack rest) (object : Nat) :
    (machine.withStack rest).surplus object = machine.surplus object := by
  cases popsNumber with
  | true =>
      obtain ⟨value, top⟩ := leaves
      simp [surplus_withStack top]
  | false =>
      obtain rfl : machine.stack = rest := leaves
      rfl

/-! Reading and writing -/

theorem lookup_temps_eq_none (temps : ∀ entry ∈ machine.temps, isTemporary entry.1 = true)
    {name : String} (fixed : isTemporary name = false) : machine.temps.lookup name = none := by
  refine List.lookup_eq_none_iff.mpr fun entry member => ?_
  have temporary := temps entry member
  by_cases same : name = entry.1
  · rw [← same, fixed] at temporary
    cases temporary
  · simpa using same

structure Stores (machine next : Machine) (old word : Word) : Prop where
  temps : next.temps = machine.temps
  kinds : next.locals.map kind = machine.locals.map kind
  surplus : ∀ object, next.surplus object + word.weight object =
    machine.surplus object + old.weight object

theorem write?_eq_some {next : Machine} {name : String} {word : Word}
    (written : machine.write? name word = some next)
    (temps : ∀ entry ∈ machine.temps, isTemporary entry.1 = true)
    (fixed : isTemporary name = false) :
    ∃ old, machine.read? name = some old ∧ old.isReference = word.isReference ∧
      Stores machine next old word := by
  have hidden := lookup_temps_eq_none temps fixed
  unfold write? at written
  split at written
  next => cases written
  next old found =>
    split at written
    next => cases written
    next same =>
      have kinds : word.isReference = old.isReference := by simpa using same
      refine ⟨old, found, kinds.symm, ?_⟩
      simp only [read?, named?, hidden, Option.none_or] at found
      simp only [hidden, Option.isSome_none, Bool.false_eq_true, ↓reduceIte] at written
      cases place : machine.locals.lookup name with
      | some value =>
          rw [place] at found written
          cases found
          cases written
          refine ⟨rfl, map_kind_update place kinds, fun object => ?_⟩
          have replaced := references_update place word object
          simp only [surplus, onStack, inLocals]
          omega
      | none =>
          rw [place] at found written
          simp only [Option.none_or] at found
          split at found
          next =>
            obtain ⟨cell, here, element⟩ := Option.bind_eq_some_iff.mp found
            rw [here] at written
            cases written
            refine ⟨rfl, rfl, fun object => ?_⟩
            have replaced := references_update element word object
            simp only [surplus, onStack, inLocals, Heap.inElements, withHeap]
            omega
          next => cases found

end Machine

theorem isTemporary_elementText : isTemporary (Emission.elementText .object) = false := by decide

section

variable {shape : List (String × Bool)} (fixed : ∀ entry ∈ shape, isTemporary entry.1 = false)
include fixed

theorem Machine.read?_temporary {machine : Machine} (locals : machine.locals.map kind = shape)
    {name : String} (temporary : isTemporary name = true) :
    machine.read? name = machine.temps.lookup name := by
  have hidden : machine.locals.lookup name = none := by
    refine List.lookup_eq_none_iff.mpr fun entry member => ?_
    have other := fixed (kind entry) (locals ▸ List.mem_map_of_mem member)
    by_cases same : name = entry.1
    · rw [kind, ← same, temporary] at other
      cases other
    · simpa using same
  have differs : name ≠ Emission.elementText .object := by
    rintro rfl
    rw [isTemporary_elementText] at temporary
    cases temporary
  simp [read?, named?, hidden, differs]

theorem Machine.inNames_temporaries {machine next : Machine}
    (locals : machine.locals.map kind = shape) (after : next.locals.map kind = shape)
    {names : List String} (temporary : ∀ name ∈ names, isTemporary name = true)
    (temps : ∀ name ∈ names, next.temps.lookup name = machine.temps.lookup name) (object : Nat) :
    next.inNames object names = machine.inNames object names := by
  refine inNames_congr (fun name member => ?_) object
  rw [read?_temporary fixed after (temporary name member), temps name member,
    read?_temporary fixed locals (temporary name member)]

namespace Ledger

variable {ledger after : Ledger} {machine next : Machine}

theorem Holds.idle (holds : ledger.Holds shape machine) (settled : ledger.vacant = [])
    (locals : next.locals.map kind = shape) (temps : next.temps = machine.temps)
    (kept : ∀ object, next.surplus object = machine.surplus object) : ledger.Holds shape next := by
  refine ⟨locals, temps ▸ holds.temps, holds.owned, holds.vacant, fun object => ?_⟩
  have books := holds.books object
  have names := Machine.inNames_temporaries fixed holds.locals locals holds.owned
    (fun _ _ => by rw [temps]) object
  rw [settled, Machine.inNames_nil] at books ⊢
  rw [kept, names]
  exact books

theorem Holds.declare (holds : ledger.Holds shape machine) {type : StackType} {name : String}
    (declared : ledger.declare? type name = some after) {word : Word} (fits : word.fits type = true)
    (locals : next.locals = machine.locals) (temps : next.temps = (name, word) :: machine.temps)
    (taken : ∀ object, next.surplus object = machine.surplus object + word.weight object) :
    after.Holds shape next := by
  unfold declare? at declared
  split at declared
  next allowed =>
    obtain ⟨temporary, fresh, settled⟩ := allowed
    have shaped : next.locals.map kind = shape := locals ▸ holds.locals
    have declarations : ∀ entry ∈ next.temps, isTemporary entry.1 = true := by
      rw [temps]
      exact List.forall_mem_cons.mpr ⟨temporary, holds.temps⟩
    have books (object : Nat) :
        next.surplus object = word.weight object + next.inNames object ledger.owned := by
      have before := holds.books object
      have names := Machine.inNames_temporaries fixed holds.locals shaped holds.owned
        (fun other member => by
          have differs : other ≠ name := fun same => fresh (same ▸ member)
          simp [temps, List.lookup_cons, beq_false_of_ne differs]) object
      rw [settled, Machine.inNames_nil] at before
      rw [taken, names]
      omega
    cases declared
    split
    next reference =>
      have here : next.read? name = some word := by
        rw [Machine.read?_temporary fixed shaped temporary, temps]
        simp
      refine ⟨shaped, declarations, ?_, holds.vacant, fun object => ?_⟩
      · exact List.forall_mem_cons.mpr ⟨temporary, holds.owned⟩
      · rw [settled, Machine.inNames_nil, Machine.inNames_cons here, books]
        omega
    next number =>
      have plain := Word.not_isReference_of_fits fits number
      refine ⟨shaped, declarations, holds.owned, holds.vacant, fun object => ?_⟩
      rw [settled, Machine.inNames_nil, books, Word.weight_of_not_isReference plain]
      omega
  next => cases declared

end Ledger

end

structure Machine.SameVariables (machine next : Machine) : Prop where
  locals : next.locals = machine.locals
  temps : next.temps = machine.temps
  elements : next.heap.elements = machine.heap.elements

theorem Machine.SameVariables.inNames {machine next : Machine} (same : machine.SameVariables next)
    (object : Nat) (names : List String) : next.inNames object names = machine.inNames object names := by
  obtain ⟨locals, temps, elements⟩ := same
  refine inNames_congr (fun name _ => ?_) object
  simp only [read?, named?, cell?, locals, temps, elements]

namespace Ledger

variable {shape : List (String × Bool)} {ledger after : Ledger} {machine next : Machine}

theorem take?_eq_some {name : String} (taken : ledger.take? name = some after) :
    (name :: after.owned).Perm ledger.owned ∧ after.vacant = ledger.vacant := by
  unfold take? at taken
  split at taken
  next member =>
    cases taken
    exact ⟨(List.perm_cons_erase member).symm, rfl⟩
  next => cases taken

theorem Holds.take (holds : ledger.Holds shape machine) {name : String}
    (taken : ledger.take? name = some after) {word : Word} (found : machine.read? name = some word)
    (same : machine.SameVariables next)
    (given : ∀ object, next.surplus object = machine.surplus object - word.weight object) :
    after.Holds shape next := by
  obtain ⟨parts, vacant⟩ := take?_eq_some taken
  refine ⟨same.locals ▸ holds.locals, same.temps ▸ holds.temps, ?_, vacant ▸ holds.vacant, ?_⟩
  · intro other member
    exact holds.owned other (parts.subset (List.mem_cons_of_mem name member))
  · intro object
    have books := holds.books object
    have names := machine.inNames_perm parts object
    rw [Machine.inNames_cons found] at names
    rw [vacant, same.inNames, same.inNames, given]
    omega

theorem Holds.release (holds : ledger.Holds shape machine) {name : String}
    (released : ledger.release? name = some after) {word : Word}
    (found : machine.read? name = some word) : after.Holds shape (machine.retain word (-1)) := by
  have same : machine.SameVariables (machine.retain word (-1)) := ⟨rfl, rfl, rfl⟩
  unfold release? at released
  split at released
  next temporary =>
    refine holds.take released found same fun object => ?_
    rw [Machine.surplus_retain]
    omega
  next place =>
    cases released
    refine ⟨holds.locals, holds.temps, holds.owned, ?_, fun object => ?_⟩
    · exact List.forall_mem_cons.mpr ⟨by simpa using place, holds.vacant⟩
    · have books := holds.books object
      rw [same.inNames, same.inNames, Machine.inNames_cons found, Machine.surplus_retain]
      dsimp only
      omega

theorem Holds.retain (holds : ledger.Holds shape machine) {name : String}
    (temporary : isTemporary name = true) {word : Word} (found : machine.read? name = some word) :
    Holds shape { ledger with owned := name :: ledger.owned } (machine.retain word 1) := by
  have same : machine.SameVariables (machine.retain word 1) := ⟨rfl, rfl, rfl⟩
  refine ⟨holds.locals, holds.temps, ?_, holds.vacant, fun object => ?_⟩
  · exact List.forall_mem_cons.mpr ⟨temporary, holds.owned⟩
  · have books := holds.books object
    rw [same.inNames, same.inNames, Machine.inNames_cons found, Machine.surplus_retain]
    dsimp only
    omega

theorem Holds.assign (fixed : ∀ entry ∈ shape, isTemporary entry.1 = false)
    (holds : ledger.Holds shape machine) {target value : String} (waits : ledger.vacant = [target])
    (taken : take? { ledger with vacant := [] } value = some after) {word : Word}
    (found : machine.read? value = some word) (written : machine.write? target word = some next) :
    after.Holds shape next := by
  obtain ⟨parts, settled⟩ := take?_eq_some taken
  dsimp only at parts settled
  have place : isTemporary target = false := holds.vacant target (by simp [waits])
  obtain ⟨old, before, _, stores⟩ := Machine.write?_eq_some written holds.temps place
  have shaped : next.locals.map kind = shape := stores.kinds.trans holds.locals
  have owned : ∀ name ∈ after.owned, isTemporary name = true := fun other member =>
    holds.owned other (parts.subset (List.mem_cons_of_mem value member))
  refine ⟨shaped, stores.temps ▸ holds.temps, owned, by simp [settled], fun object => ?_⟩
  have books := holds.books object
  have replaced := stores.surplus object
  have names := machine.inNames_perm parts object
  have same := Machine.inNames_temporaries fixed holds.locals shaped owned
    (fun _ _ => by rw [stores.temps]) object
  rw [Machine.inNames_cons found] at names
  rw [waits, Machine.inNames_cons before, Machine.inNames_nil] at books
  rw [settled, Machine.inNames_nil, same]
  omega

end Ledger

/-! Returning -/

def objectNames (shape : List (String × Bool)) : List String :=
  (shape.filter Prod.snd).map Prod.fst

theorem lookup_of_mem {α : Type} {entries : List (String × α)}
    (distinct : (entries.map Prod.fst).Nodup) {entry : String × α} (member : entry ∈ entries) :
    entries.lookup entry.1 = some entry.2 := by
  induction entries with
  | nil => cases member
  | cons head rest ih =>
      obtain ⟨new, others⟩ := List.nodup_cons.mp distinct
      rcases List.mem_cons.mp member with rfl | later
      · rw [List.lookup_cons_self]
      · have differs : entry.1 ≠ head.1 := by
          intro same
          rw [← same] at new
          exact new (List.mem_map_of_mem later)
        rw [List.lookup_cons, beq_false_of_ne differs]
        exact ih others later

theorem references_filter_isReference (object : Nat) (entries : List (String × Word)) :
    references object ((entries.filter (·.2.isReference)).map Prod.snd) =
      references object (entries.map Prod.snd) := by
  induction entries with
  | nil => rfl
  | cons entry rest ih =>
      cases plain : entry.2.isReference with
      | true => simp [plain, ih]
      | false => simp [plain, ih, Word.weight_of_not_isReference plain]

theorem Settled.closeBlock {shape : List (String × Bool)} {flow : Flow} {machine : Machine}
    (settled : Settled shape flow machine) (count : Nat) :
    Settled shape flow (machine.closeBlock count) := by
  refine ⟨settled.locals, ?_, settled.balanced⟩
  exact fun entry member => settled.temps entry (List.mem_of_mem_drop member)

theorem Sequence.keeps {α β : Type} {step : Machine → α → Flow → Machine → Prop}
    {advance : β → α → Option β} {holds : β → Machine → Prop} {leaves : Flow → Machine → Prop}
    (each : ∀ {account after machine next} {action : α} {flow}, holds account machine →
      advance account action = some after → step machine action flow next →
      (flow = .next → holds after next) ∧ (flow ≠ .next → leaves flow next))
    {account after : β} {machine next : Machine} {actions : List α} {flow : Flow}
    (start : holds account machine) (accepted : actions.foldlM advance account = some after)
    (run : Sequence step machine actions flow next) :
    (flow = .next → holds after next) ∧ (flow ≠ .next → leaves flow next) := by
  -- On the run; where it leaves, the rest of the actions has been accepted and is not run.
  induction run generalizing account with
  | nil =>
      cases accepted
      exact ⟨fun _ => start, by simp⟩
  | cons here _ ih =>
      rw [List.foldlM_cons] at accepted
      obtain ⟨middle, first, rest⟩ := Option.bind_eq_some_iff.mp accepted
      exact ih ((each start first here).1 rfl) rest
  | leave here elsewhere =>
      rw [List.foldlM_cons] at accepted
      obtain ⟨middle, first, _⟩ := Option.bind_eq_some_iff.mp accepted
      exact ⟨fun stays => absurd stays elsewhere, (each start first here).2⟩

section

variable {shape : List (String × Bool)} (fixed : ∀ entry ∈ shape, isTemporary entry.1 = false)
  (distinct : (shape.map Prod.fst).Nodup)
include fixed distinct

theorem Machine.inNames_objectNames {machine : Machine} (locals : machine.locals.map kind = shape)
    (temps : ∀ entry ∈ machine.temps, isTemporary entry.1 = true) (object : Nat) :
    machine.inNames object (objectNames shape) = machine.inLocals object := by
  have keys : (machine.locals.map Prod.fst).Nodup := by
    have same : shape.map Prod.fst = machine.locals.map Prod.fst := by
      simp [← locals, kind, Function.comp_def]
    rwa [← same]
  have names : objectNames shape =
      (machine.locals.filter (·.2.isReference)).map Prod.fst := by
    simp [objectNames, ← locals, kind, List.filter_map, Function.comp_def]
  have words : (objectNames shape).filterMap machine.read? =
      (machine.locals.filter (·.2.isReference)).map Prod.snd := by
    rw [names, List.filterMap_map, ← List.filterMap_eq_map]
    refine List.filterMap_congr fun entry member => ?_
    have known := (List.mem_filter.mp member).1
    have place : isTemporary entry.1 = false :=
      fixed (kind entry) (locals ▸ List.mem_map_of_mem known)
    have hidden := Machine.lookup_temps_eq_none temps place
    simp [Machine.read?, Machine.named?, hidden, lookup_of_mem keys known]
  rw [Machine.inNames, words, references_filter_isReference, Machine.inLocals]

namespace Ledger

variable {ledger after : Ledger} {machine next : Machine}

omit fixed distinct in
theorem Holds.balanced (holds : empty.Holds shape machine) : machine.Balanced := by
  intro object
  have books := holds.books object
  simp only [empty, Machine.inNames_nil, Machine.surplus] at books
  omega

theorem Holds.balancedWithoutLocals (holds : ledger.Holds shape machine)
    (returned : ledger.return? (objectNames shape) = some after) :
    machine.BalancedWithoutLocals := by
  unfold return? at returned
  split at returned
  next allowed =>
    obtain ⟨owned, vacant⟩ := allowed
    intro object
    have books := holds.books object
    have locals := Machine.inNames_objectNames fixed distinct holds.locals holds.temps object
    rw [machine.inNames_perm vacant, locals, owned, Machine.inNames_nil, Machine.surplus] at books
    omega
  next => cases returned

omit distinct in
theorem Holds.idle? (holds : ledger.Holds shape machine) (passed : ledger.idle? = some after)
    (locals : next.locals.map kind = shape) (temps : next.temps = machine.temps)
    (kept : ∀ object, next.surplus object = machine.surplus object) : after.Holds shape next := by
  unfold Ledger.idle? at passed
  split at passed
  next settled =>
    cases passed
    exact holds.idle fixed settled locals temps kept
  next => cases passed

omit distinct in
theorem Holds.close? (holds : ledger.Holds shape machine) (passed : ledger.close? = some after)
    (locals : next.locals.map kind = shape) (temps : next.temps = machine.temps)
    (kept : ∀ object, next.surplus object = machine.surplus object) :
    after.Holds shape next ∧ next.Balanced := by
  unfold Ledger.close? at passed
  split at passed
  next none =>
    cases passed
    have settled : empty.Holds shape next := (none ▸ holds).idle fixed rfl locals temps kept
    exact ⟨settled, settled.balanced⟩
  next => cases passed

omit distinct in
theorem Holds.withStack (holds : ledger.Holds shape machine) (passed : ledger.close? = some after)
    {popsNumber : Bool} {rest : List Word} (leaves : Leaves popsNumber machine.stack rest) :
    after.Holds shape (machine.withStack rest) ∧ (machine.withStack rest).Balanced :=
  holds.close? fixed passed holds.locals rfl (Machine.surplus_of_leaves leaves)

omit distinct in
/-- A number is written to a local; `middle` differs from `machine` in its stack only. -/
theorem Holds.storeNumber (holds : ledger.Holds shape machine) (passed : ledger.idle? = some after)
    {middle : Machine} {name : String} {word : Word} (written : middle.write? name word = some next)
    (place : isTemporary name = false) (plain : word.isReference = false)
    (locals : middle.locals = machine.locals) (temps : middle.temps = machine.temps)
    (kept : ∀ object, middle.surplus object = machine.surplus object) : after.Holds shape next := by
  obtain ⟨old, _, kinds, stores⟩ :=
    Machine.write?_eq_some written (temps ▸ holds.temps) place
  have shaped : next.locals.map kind = shape := by rw [stores.kinds, locals, holds.locals]
  refine holds.idle? fixed passed shaped (stores.temps.trans temps) fun object => ?_
  have same := stores.surplus object
  rw [Word.weight_of_not_isReference plain, Word.weight_of_not_isReference (kinds.trans plain),
    kept] at same
  omega

theorem Holds.step {stmt : Stmt} {flow : Flow} (holds : ledger.Holds shape machine)
    (accepted : ledger.stmt? (objectNames shape) stmt = some after)
    (step : Step machine stmt flow next) :
    (flow = .next → after.Holds shape next) ∧ (flow ≠ .next → Settled shape flow next) := by
  -- Most rules leave all variables alone, and what they add to the count of an object they put on
  -- the stack; the rules for variables have lemmas of their own above.
  cases step with
  | silent silent =>
      have passed : ledger.idle? = some after := by
        cases stmt <;> first | exact accepted | simp [Stmt.isSilent] at silent
      exact ⟨fun _ => holds.idle? fixed passed holds.locals rfl fun _ => rfl, by simp⟩
  | call runs settles =>
      have passed : ledger.idle? = some after := by
        cases stmt <;> first | exact accepted | simp [Stmt.isCall] at runs
      exact ⟨fun _ => holds.idle? fixed passed holds.locals rfl (machine.surplus_withHeap settles),
        by simp⟩
  | push fits =>
      refine ⟨fun _ => holds.idle? fixed accepted holds.locals rfl fun object => ?_, by simp⟩
      rw [Machine.surplus_push, Machine.surplus_retain]
      omega
  | pushCall settles fits =>
      refine ⟨fun _ => holds.idle? fixed accepted holds.locals rfl fun object => ?_, by simp⟩
      rw [Machine.surplus_push, Machine.surplus_retain, machine.surplus_withHeap settles]
      omega
  | @pushFresh _ rest _ _ leaves settles =>
      refine ⟨fun _ => holds.idle? fixed accepted holds.locals rfl fun object => ?_, by simp⟩
      rw [Machine.surplus_push, Machine.surplus_retain,
        (machine.withStack rest).surplus_withHeap settles, Machine.surplus_of_leaves leaves]
      omega
  | @releaseFresh _ rest _ _ leaves settles =>
      refine ⟨fun _ => holds.idle? fixed accepted holds.locals rfl fun object => ?_, by simp⟩
      rw [Machine.surplus_retain, Machine.surplus_retain,
        (machine.withStack rest).surplus_withHeap settles, Machine.surplus_of_leaves leaves]
      omega
  | pushMoved found _ =>
      refine ⟨fun _ => holds.take accepted found ⟨rfl, rfl, rfl⟩ fun object => ?_, by simp⟩
      exact Machine.surplus_push ..
  | shuffle kept =>
      refine ⟨fun _ => holds.idle? fixed accepted holds.locals rfl fun object => ?_, by simp⟩
      have same := kept object
      simp only [Machine.surplus, Machine.withHeap, Machine.withStack, Machine.onStack,
        Machine.inLocals, Heap.inElements] at same ⊢
      omega
  | pop top fits =>
      refine ⟨fun _ => holds.declare fixed accepted fits rfl rfl fun object => ?_, by simp⟩
      rw [Machine.surplus_declare, Machine.surplus_withStack top]
  | popInto _ top fits written =>
      refine ⟨fun _ => ?_, by simp⟩
      simp only [stmt?] at accepted
      split at accepted
      next => cases accepted
      next allowed =>
        obtain ⟨number, place⟩ := not_or.mp allowed
        have plain := Word.not_isReference_of_fits fits number
        refine holds.storeNumber fixed accepted written (by simpa using place) plain rfl rfl
          fun object => ?_
        rw [Machine.surplus_withStack top, Word.weight_of_not_isReference plain, Int.add_zero]
  | assign place found written =>
      refine ⟨fun _ => ?_, by simp⟩
      simp only [stmt?, assign?, place, Bool.false_eq_true, ↓reduceIte] at accepted
      split at accepted
      next waits => exact holds.assign fixed waits accepted found written
      next => cases accepted
  | storeNumber element =>
      simp only [stmt?, assign?, element, ↓reduceIte] at accepted
      cases accepted
      exact ⟨fun _ => holds, by simp⟩
  | increment written =>
      refine ⟨fun _ => ?_, by simp⟩
      simp only [stmt?] at accepted
      split at accepted
      next => cases accepted
      next place =>
        exact holds.storeNumber fixed accepted written (by simpa using place) rfl rfl rfl
          fun _ => rfl
  | retain found _ =>
      refine ⟨fun _ => ?_, by simp⟩
      simp only [stmt?] at accepted
      split at accepted
      next temporary =>
        cases accepted
        exact holds.retain temporary found
      next => cases accepted
  | release found _ => exact ⟨fun _ => holds.release accepted found, by simp⟩
  | @setPopped _ _ _ rest _ top fits settles =>
      refine ⟨fun _ => ?_, by simp⟩
      simp only [stmt?] at accepted
      split at accepted
      next => cases accepted
      next number =>
        have plain := Word.not_isReference_of_fits fits number
        refine holds.idle? fixed accepted holds.locals rfl fun object => ?_
        rw [(machine.withStack rest).surplus_withHeap settles, Machine.surplus_withStack top,
          Word.weight_of_not_isReference plain]
        omega
  | setFlag =>
      refine ⟨fun _ => holds.declare fixed accepted rfl rfl rfl fun object => ?_, by simp⟩
      simp
  | jump =>
      have closed := holds.close? fixed accepted holds.locals rfl fun _ => rfl
      exact ⟨by simp, fun _ => ⟨holds.locals, holds.temps, by simpa using closed.2⟩⟩
  | branch leaves flows =>
      obtain ⟨kept, balanced⟩ := holds.withStack fixed accepted leaves
      refine ⟨fun _ => kept, fun _ => ⟨holds.locals, holds.temps, ?_⟩⟩
      rcases flows with rfl | rfl <;> simpa using balanced
  | returnVoid =>
      have left := holds.balancedWithoutLocals fixed distinct accepted
      exact ⟨by simp, fun _ => ⟨holds.locals, holds.temps, by simpa using left⟩⟩
  | returnNumber number =>
      have returned : ledger.return? (objectNames shape) = some after := by
        simpa [stmt?, number] using accepted
      have left := holds.balancedWithoutLocals fixed distinct returned
      exact ⟨by simp, fun _ => ⟨holds.locals, holds.temps, by simpa using left⟩⟩
  | @returnReference _ word found _ =>
      obtain ⟨middle, taken, returned⟩ := Option.bind_eq_some_iff.mp accepted
      have given : middle.Holds shape (machine.handOver word) :=
        holds.take taken found ⟨rfl, rfl, rfl⟩ (Machine.surplus_handOver word)
      have left := given.balancedWithoutLocals fixed distinct returned
      exact ⟨by simp, fun _ => ⟨holds.locals, holds.temps, by simpa using left⟩⟩
  | @throwTop word rest top _ =>
      obtain ⟨_, balanced⟩ : after.Holds shape ((machine.withStack rest).handOver word) ∧
          ((machine.withStack rest).handOver word).Balanced := by
        refine holds.close? fixed accepted holds.locals rfl fun object => ?_
        rw [Machine.surplus_handOver, Machine.surplus_withStack top]
        omega
      exact ⟨by simp, fun _ => ⟨holds.locals, holds.temps, by simpa using balanced⟩⟩

omit fixed distinct in
theorem Holds.closeBlock (holds : ledger.Holds shape machine)
    (passed : ledger.close? = some after) (count : Nat) :
    after.Holds shape (machine.closeBlock count) := by
  unfold Ledger.close? at passed
  split at passed
  next none =>
    cases passed
    subst none
    refine ⟨holds.locals, ?_, holds.owned, holds.vacant, holds.books⟩
    exact fun entry member => holds.temps entry (List.mem_of_mem_drop member)
  next => cases passed

theorem Holds.itemStep {item : Item} {flow : Flow} (holds : ledger.Holds shape machine)
    (accepted : ledger.item? (objectNames shape) item = some after)
    (step : ItemStep Step machine item flow next) :
    (flow = .next → after.Holds shape next) ∧ (flow ≠ .next → Settled shape flow next) := by
  cases step with
  | stmt here => exact holds.step fixed distinct accepted here
  | @block body _ last ran =>
      obtain ⟨settled, checked, closed⟩ := Option.bind_eq_some_iff.mp accepted
      obtain ⟨falls, leaves⟩ := Sequence.keeps (Holds.step fixed distinct) holds checked ran
      exact ⟨fun stays => (falls stays).closeBlock closed _,
        fun elsewhere => (leaves elsewhere).closeBlock _⟩
  | choose top member =>
      have popped : Leaves true machine.stack _ := ⟨_, top⟩
      obtain ⟨_, balanced⟩ := holds.withStack fixed accepted popped
      exact ⟨by simp, fun _ => ⟨holds.locals, holds.temps, by simpa using balanced⟩⟩
  | fallThrough top =>
      have popped : Leaves true machine.stack _ := ⟨_, top⟩
      obtain ⟨kept, _⟩ := holds.withStack fixed accepted popped
      exact ⟨fun _ => kept, by simp⟩
  | anchor =>
      cases accepted
      exact ⟨fun _ => holds, by simp⟩

end Ledger

theorem Run.settled {machine next : Machine} {items : List Item} {flow : Flow}
    (run : Run machine items flow next)
    (accepted : items.foldlM (Ledger.item? (objectNames shape)) .empty = some .empty)
    (locals : machine.locals.map kind = shape)
    (temps : ∀ entry ∈ machine.temps, isTemporary entry.1 = true) (balanced : machine.Balanced) :
    Settled shape flow next := by
  have start : Ledger.empty.Holds shape machine := by
    refine ⟨locals, temps, by simp [Ledger.empty], by simp [Ledger.empty], fun object => ?_⟩
    have books := balanced object
    simp only [Ledger.empty, Machine.inNames_nil, Machine.surplus]
    omega
  obtain ⟨falls, leaves⟩ := Sequence.keeps (Ledger.Holds.itemStep fixed distinct) start accepted run
  by_cases stays : flow = .next
  · have holds := falls stays
    exact ⟨holds.locals, holds.temps, by simpa [stays] using holds.balanced⟩
  · exact leaves stays

end

end C

end BytecodeToC
