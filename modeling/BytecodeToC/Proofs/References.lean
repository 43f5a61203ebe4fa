import BytecodeToC.Emission.Objects
import Mathlib.Data.List.Count

/-!
What lowered C code does to references. A machine runs the statements of a body and keeps, for every
object, the number of its references. It is told of an object only who holds it: slots of the operand
stack, locals, variables of the current block, elements of arrays, and everything else, which is taken
together. Whatever it does not track, such as which object a call returns, can be anything.
-/

namespace BytecodeToC

namespace C

inductive Word where
  | number (value : Int)
  | reference (object : Option Nat)
deriving DecidableEq, Repr

namespace Word

def isReference : Word → Bool
  | number _ => false
  | reference _ => true

def fits (word : Word) (type : StackType) : Bool := word.isReference = (type = .object)

/-- The references to an object that a word is. -/
def weight (object : Nat) (word : Word) : Int := if word = reference (some object) then 1 else 0

@[simp] theorem weight_number (object : Nat) (value : Int) : weight object (number value) = 0 := rfl

theorem not_isReference_of_fits {word : Word} {type : StackType} (fits : word.fits type = true)
    (number : type ≠ .object) : word.isReference = false := by
  simpa [Word.fits, number] using fits

theorem weight_of_not_isReference {word : Word} (number : word.isReference = false) (object : Nat) :
    word.weight object = 0 := by
  cases word with
  | number value => rfl
  | reference target => simp [isReference] at number

end Word

def references (object : Nat) (words : List Word) : Int := words.count (.reference (some object))

@[simp] theorem references_nil (object : Nat) : references object [] = 0 := rfl

@[simp] theorem references_cons (object : Nat) (word : Word) (words : List Word) :
    references object (word :: words) = word.weight object + references object words := by
  by_cases here : word = .reference (some object)
  · simp [references, Word.weight, here]
    omega
  · simp [references, Word.weight, here]

theorem references_perm {first second : List Word} (same : first.Perm second) (object : Nat) :
    references object first = references object second :=
  congrArg Int.ofNat (same.count_eq _)

def update {κ : Type} [BEq κ] (key : κ) (word : Word) : List (κ × Word) → List (κ × Word)
  | [] => []
  | entry :: rest => if key == entry.1 then (entry.1, word) :: rest else entry :: update key word rest

def kind (entry : String × Word) : String × Bool := (entry.1, entry.2.isReference)

theorem references_update {κ : Type} [BEq κ] {key : κ} {old : Word} {entries : List (κ × Word)}
    (found : entries.lookup key = some old) (word : Word) (object : Nat) :
    references object ((update key word entries).map Prod.snd) + old.weight object =
      references object (entries.map Prod.snd) + word.weight object := by
  induction entries with
  | nil => cases found
  | cons entry rest ih =>
      obtain ⟨name, value⟩ := entry
      cases here : key == name with
      | true =>
          simp only [List.lookup_cons, here, Option.some.injEq] at found
          simp only [update, here, ↓reduceIte, List.map_cons, references_cons, found]
          omega
      | false =>
          simp only [List.lookup_cons, here] at found
          have others := ih found
          simp only [update, here, Bool.false_eq_true, ↓reduceIte, List.map_cons, references_cons]
          omega

theorem map_kind_update {key : String} {old word : Word} {entries : List (String × Word)}
    (found : entries.lookup key = some old) (same : word.isReference = old.isReference) :
    (update key word entries).map kind = entries.map kind := by
  induction entries with
  | nil => rfl
  | cons entry rest ih =>
      obtain ⟨name, value⟩ := entry
      cases here : key == name with
      | true =>
          simp only [List.lookup_cons, here, Option.some.injEq] at found
          simp [update, here, kind, same, found]
      | false =>
          simp only [List.lookup_cons, here] at found
          simp [update, here, ih found]

/-! The machine -/

structure Heap where
  refs : Nat → Int
  /-- Those held neither by the current frame nor by arrays of objects. -/
  outside : Nat → Int
  elements : List ((Nat × Int) × Word) := []

structure Machine where
  heap : Heap
  stack : List Word := []
  locals : List (String × Word) := []
  temps : List (String × Word) := []

inductive Flow where
  | next
  | jumps (destination : Jump)
  | returns
  | throws
deriving DecidableEq, Repr

namespace Heap

def inElements (heap : Heap) (object : Nat) : Int :=
  references object (heap.elements.map Prod.snd)

def retain (heap : Heap) (word : Word) (count : Int) : Heap :=
  { heap with refs := fun object => heap.refs object + count * word.weight object }

def handOver (heap : Heap) (word : Word) : Heap :=
  { heap with outside := fun object => heap.outside object + word.weight object }

/-- What code outside of the frame may do: it accounts for every reference that it takes or drops. -/
def Settles (before after : Heap) : Prop :=
  ∀ object, after.refs object - after.outside object - after.inElements object =
    before.refs object - before.outside object - before.inElements object

theorem settles_refl (heap : Heap) : heap.Settles heap := fun _ => rfl

end Heap

namespace Machine

def push (machine : Machine) (word : Word) : Machine :=
  { machine with stack := word :: machine.stack }

def declare (machine : Machine) (name : String) (word : Word) : Machine :=
  { machine with temps := (name, word) :: machine.temps }

def withHeap (machine : Machine) (heap : Heap) : Machine := { machine with heap }

def withStack (machine : Machine) (stack : List Word) : Machine := { machine with stack }

def retain (machine : Machine) (word : Word) (count : Int) : Machine :=
  machine.withHeap (machine.heap.retain word count)

def handOver (machine : Machine) (word : Word) : Machine :=
  machine.withHeap (machine.heap.handOver word)

def onStack (machine : Machine) (object : Nat) : Int := references object machine.stack

def inLocals (machine : Machine) (object : Nat) : Int :=
  references object (machine.locals.map Prod.snd)

/-- Every slot of the stack, every local and every element of an array owns one reference. -/
def Balanced (machine : Machine) : Prop :=
  ∀ object, machine.heap.refs object = machine.heap.outside object + machine.onStack object +
    machine.inLocals object + machine.heap.inElements object

def BalancedWithoutLocals (machine : Machine) : Prop :=
  ∀ object, machine.heap.refs object = machine.heap.outside object + machine.onStack object +
    machine.heap.inElements object

def named? (machine : Machine) (name : String) : Option Word :=
  (machine.temps.lookup name).or (machine.locals.lookup name)

def cell? (machine : Machine) : Option (Nat × Int) :=
  match machine.named? "__array", machine.named? "__index" with
  | some (.reference (some array)), some (.number index) => some (array, index)
  | _, _ => none

/-- The word that a text stands for where it names a variable or an element of an array of objects. -/
def read? (machine : Machine) (text : String) : Option Word :=
  (machine.named? text).or
    (if text = Emission.elementText .object then
      machine.cell?.bind fun cell => machine.heap.elements.lookup cell
    else none)

/-- Assigns to what a text stands for. Numbers and references do not mix. -/
def write? (machine : Machine) (text : String) (word : Word) : Option Machine :=
  match machine.read? text with
  | none => none
  | some old =>
    if word.isReference ≠ old.isReference then none
    else if (machine.temps.lookup text).isSome then
      some { machine with temps := update text word machine.temps }
    else if (machine.locals.lookup text).isSome then
      some { machine with locals := update text word machine.locals }
    else
      machine.cell?.map fun cell =>
        machine.withHeap { machine.heap with elements := update cell word machine.heap.elements }

end Machine

def isNumberElement (text : String) : Bool :=
  [ElementType.float, .double, .long, .int, .byte, .char, .short].any fun element =>
    text = Emission.elementText element

def Stmt.isSilent : Stmt → Bool
  -- A check that fails throws, and the statement does not complete normally.
  | comment _ | checkNull _ | checkArrayAccess .. | checkCast .. | classBackref .. => true
  | saveTry _ | beginTry .. | endTry _ | exitTries => true
  | _ => false

def Stmt.isCall : Stmt → Bool
  | call _ | set _ | monitor .. => true
  | _ => false

def Fresh.popsNumber : Fresh → Bool
  | array .. => true
  | _ => false

def Test.popsNumber : Test → Bool
  | popped _ => true
  | _ => false

def Leaves (popsNumber : Bool) (stack rest : List Word) : Prop :=
  if popsNumber then ∃ value, stack = .number value :: rest else stack = rest

/-- One statement that completes normally. -/
inductive Step : Machine → Stmt → Flow → Machine → Prop
  | silent {machine stmt} : stmt.isSilent = true → Step machine stmt .next machine
  | call {machine stmt heap} : stmt.isCall = true → machine.heap.Settles heap →
      Step machine stmt .next (machine.withHeap heap)
  -- What is read or returned is not owned: `word` can be any, and is retained.
  | push {machine type value word} : word.fits type = true →
      Step machine (.push type value) .next ((machine.retain word 1).push word)
  | pushCall {machine type application heap word} :
      machine.heap.Settles heap → word.fits type = true →
      Step machine (.pushCall type application) .next
        (((machine.withHeap heap).retain word 1).push word)
  -- What is allocated arrives with a reference.
  | pushFresh {machine value rest heap object} :
      Leaves value.popsNumber machine.stack rest → machine.heap.Settles heap →
      Step machine (.pushFresh value) .next
        ((((machine.withStack rest).withHeap heap).retain (.reference object) 1).push
          (.reference object))
  | releaseFresh {machine value rest heap object} :
      Leaves value.popsNumber machine.stack rest → machine.heap.Settles heap →
      Step machine (.releaseFresh value) .next
        ((((machine.withStack rest).withHeap heap).retain (.reference object) 1).retain
          (.reference object) (-1))
  | pushMoved {machine name word} : machine.read? name = some word → word.isReference = true →
      Step machine (.pushMoved name) .next (machine.push word)
  -- Shuffles retain what they copy and release what they drop.
  | shuffle {machine action refs stack} :
      (∀ object, refs object - references object stack =
        machine.heap.refs object - machine.onStack object) →
      Step machine (.shuffle action) .next
        ((machine.withStack stack).withHeap { machine.heap with refs })
  | pop {machine type name word rest} : machine.stack = word :: rest → word.fits type = true →
      Step machine (.pop type name) .next ((machine.withStack rest).declare name word)
  | popInto {machine type name word rest next} : isNumberElement name = false →
      machine.stack = word :: rest → word.fits type = true →
      (machine.withStack rest).write? name word = some next →
      Step machine (.popInto type name) .next next
  | assign {machine target value word next} : isNumberElement target = false →
      machine.read? value = some word → machine.write? target word = some next →
      Step machine (.assign target value) .next next
  | storeNumber {machine target value} : isNumberElement target = true →
      Step machine (.assign target value) .next machine
  | increment {machine name delta value next} : machine.write? name (.number value) = some next →
      Step machine (.increment name delta) .next next
  | retain {machine name word} : machine.read? name = some word → word.isReference = true →
      Step machine (.retain name) .next (machine.retain word 1)
  | release {machine target word} : machine.read? target = some word → word.isReference = true →
      Step machine (.release target) .next (machine.retain word (-1))
  | setPopped {machine setter type word rest heap} : machine.stack = word :: rest →
      word.fits type = true → machine.heap.Settles heap →
      Step machine (.setPopped setter type) .next ((machine.withStack rest).withHeap heap)
  | setFlag {machine name test left right value} :
      Step machine (.setFlag name test left right) .next (machine.declare name (.number value))
  | jump {machine destination} : Step machine (.jump destination) (.jumps destination) machine
  -- Either way can be taken.
  | branch {machine test destination rest flow} : Leaves test.popsNumber machine.stack rest →
      flow = .next ∨ flow = .jumps destination →
      Step machine (.branch test destination) flow (machine.withStack rest)
  | returnVoid {machine} : Step machine .returnVoid .returns machine
  | returnNumber {machine type name} : type ≠ .object →
      Step machine (.returnValue type name) .returns machine
  | returnReference {machine name word} : machine.read? name = some word → word.isReference = true →
      Step machine (.returnValue .object name) .returns (machine.handOver word)
  | throwTop {machine word rest} : machine.stack = word :: rest → word.isReference = true →
      Step machine .throwTop .throws ((machine.withStack rest).handOver word)

inductive Sequence {α : Type} (step : Machine → α → Flow → Machine → Prop) :
    Machine → List α → Flow → Machine → Prop
  | nil {machine} : Sequence step machine [] .next machine
  | cons {machine first middle rest flow last} : step machine first .next middle →
      Sequence step middle rest flow last → Sequence step machine (first :: rest) flow last
  | leave {machine first rest flow last} : step machine first flow last → flow ≠ .next →
      Sequence step machine (first :: rest) flow last

def Machine.closeBlock (machine : Machine) (count : Nat) : Machine :=
  { machine with temps := machine.temps.drop (machine.temps.length - count) }

inductive ItemStep (step : Machine → Stmt → Flow → Machine → Prop) :
    Machine → Item → Flow → Machine → Prop
  | stmt {machine single flow last} : step machine single flow last →
      ItemStep step machine (.stmt single) flow last
  | block {machine body flow last} : Sequence step machine body flow last →
      ItemStep step machine (.block body) flow (last.closeBlock machine.temps.length)
  | choose {machine cases default value rest destination} : machine.stack = .number value :: rest →
      destination ∈ cases.map Prod.snd ++ default.toList →
      ItemStep step machine (.switch cases default) (.jumps destination) (machine.withStack rest)
  | fallThrough {machine cases value rest} : machine.stack = .number value :: rest →
      ItemStep step machine (.switch cases none) .next (machine.withStack rest)
  | anchor {machine label} : ItemStep step machine (.anchor label) .next machine

abbrev Run : Machine → List Item → Flow → Machine → Prop := Sequence (ItemStep Step)

end C

end BytecodeToC
