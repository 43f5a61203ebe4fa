import BytecodeToC.Proofs.Ledger
import BytecodeToC.Proofs.LocalNames
import BytecodeToC.Proofs.TryScopes

/-!
The references that lowered code holds. What each instruction is lowered to passes the check of the
ledger, so after it every slot of the operand stack, every object local and every element of an array
of objects has exactly one reference again. The locals must not be named like a variable that the
lowering makes up: such a variable would hide them. Texts that a program gives for arguments and
conditions are taken to be expressions, without an effect on references.
-/

namespace BytecodeToC

open Result

namespace Emission

open C Emit

def Tidy (objectLocals : List String) (items : List Item) : Prop :=
  items.foldlM (Ledger.item? objectLocals) .empty = some .empty

variable {objectLocals : List String}

theorem Tidy.append {first second : List Item} (one : Tidy objectLocals first)
    (other : Tidy objectLocals second) : Tidy objectLocals (first ++ second) := by
  rw [Tidy, List.foldlM_append, one]
  exact other

/-- Every result of an action is good. Nothing is said of its state or of its errors. -/
abbrev Makes {α : Type} (good : α → Prop) (action : Emit α) : Prop :=
  Ensures (fun _ => True) good (fun _ => True) action

theorem makes_any {α : Type} (action : Emit α) : Makes (fun _ => True) action :=
  fun _ _ => ⟨trivial, fun _ _ => trivial, fun _ _ => trivial⟩

theorem makes_lift {α : Type} {good : α → Prop} {result : Except Error α}
    (yields : Yields good result) : Makes good (liftM result : Emit α) :=
  ensures_lift yields fun _ _ => trivial

/-! Values -/

/-- A name that can stand for a local: neither made up nor an element of an array of numbers. -/
def isPlace (name : String) : Bool := !isTemporary name && !isNumberElement name

def Argument.name? : Argument → Option String
  | popped _ name => some name
  | literal _ => none

def Argument.owned : Argument → List String
  | popped .object name => [name]
  | _ => []

def argumentName (place : Nat) : String := "__arg" ++ toString place

theorem argumentName_injective : Function.Injective argumentName := by
  intro place other same
  have lists := congrArg String.toList same
  simp only [argumentName, String.toList_append, List.append_cancel_left_eq] at lists
  have numbers := congrArg (fun digits => Nat.ofDigitChars 10 digits 0) lists
  simpa using numbers

def operandNames (count : Nat) : List String :=
  ((List.range' 0 count).map argumentName).reverse ++ ["__receiver"]

theorem nodup_operandNames (count : Nat) : (operandNames count).Nodup := by
  refine List.nodup_append.mpr ⟨?_, List.nodup_singleton _, ?_⟩
  · exact List.nodup_reverse.mpr (List.Nodup.map argumentName_injective List.nodup_range')
  · intro name member other single same
    obtain ⟨place, _, rfl⟩ := List.mem_map.mp (List.mem_reverse.mp member)
    obtain rfl := List.mem_singleton.mp single
    have lists := congrArg String.toList same
    simp [argumentName] at lists

theorem names_arguments (first : Nat) (params : List FieldType) (literals : List (Option String)) :
    ((arguments first params literals).filterMap Argument.name?).Sublist
      ((List.range' first params.length).map argumentName) := by
  induction params generalizing first literals with
  | nil => exact List.Sublist.refl _
  | cons param rest ih =>
      have others := ih (first + 1) literals.tail
      rw [List.length_cons, List.range'_succ, List.map_cons, arguments]
      split
      · exact others.cons _
      · exact others.cons_cons _

theorem names_receiver {context : MethodContext} {call : Call} {given : Option Argument}
    (made : receiver context call = .ok given) :
    (given.toList.filterMap Argument.name?).Sublist ["__receiver"] := by
  unfold receiver at made
  split at made
  · cases made
    exact List.nil_sublist _
  · cases made
    exact List.Sublist.refl _
  · cases made
    exact List.nil_sublist _
  · obtain ⟨this, _, rfl⟩ := (map_eq_ok_iff ..).mp made
    exact List.nil_sublist _

end Emission

/-! Names of locals -/

open C Emission

theorem LocalName.ne_elementText_of_isUsable {name : String} (usable : isUsable name = true)
    (element : ElementType) : name ≠ elementText element := by
  rintro rfl
  revert usable
  cases element <;> decide

theorem LocalName.generated_ne_elementText (slot : Slot) (type : StackType) (element : ElementType) :
    generated slot type ≠ elementText element := by
  intro same
  have looks := looksGenerated_generated slot type
  rw [same] at looks
  revert looks
  cases element <;> decide

theorem isNumberElement_eq_false {name : String} (other : ∀ element, name ≠ elementText element) :
    isNumberElement name = false := by
  rw [isNumberElement, List.any_eq_false]
  intro element _ same
  exact other element (of_decide_eq_true same)

theorem LocalName.isPlace_of_isUsable {name : String} (usable : isUsable name = true) :
    isPlace name = true := by
  have fixed : isTemporary name = false := by
    unfold isUsable at usable
    unfold isTemporary
    split at usable
    next => cases usable
    next first rest spelled =>
      rw [spelled]
      split
      next => simp_all
      next => rfl
  have other := isNumberElement_eq_false (ne_elementText_of_isUsable usable)
  simp [isPlace, fixed, other]

theorem LocalName.isPlace_generated (slot : Slot) (type : StackType) :
    isPlace (generated slot type) = true := by
  have fixed : isTemporary (generated slot type) = false := by
    simp [isTemporary, toList_generated]
  have other := isNumberElement_eq_false (generated_ne_elementText slot type)
  simp [isPlace, fixed, other]

theorem Listing.WellNamed.isPlace_localName {list : Listing} (named : list.WellNamed) (slot : Slot)
    (type : StackType) : isPlace (list.localName slot type) = true := by
  unfold localName boundName?
  cases found : list.names.lookup (slot, type) with
  | none => exact LocalName.isPlace_generated slot type
  | some name =>
      exact LocalName.isPlace_of_isUsable (named.usable _ (mem_names_of_lookup found))

theorem Listing.WellNamed.isTemporary_localName {list : Listing} (named : list.WellNamed)
    (slot : Slot) (type : StackType) : isTemporary (list.localName slot type) = false := by
  have place := named.isPlace_localName slot type
  simp only [isPlace, Bool.and_eq_true, Bool.not_eq_true'] at place
  exact place.1

def LocalTable.shape (locals : List LocalVar) : List (String × Bool) :=
  locals.map fun var => (var.name, decide (var.type = .object))

theorem objectNames_shape (locals : List LocalVar) :
    C.objectNames (LocalTable.shape locals) = LocalTable.objectNames locals := by
  simp [LocalTable.shape, C.objectNames, LocalTable.objectNames, List.filter_map, Function.comp_def]

/-- A machine that runs a method with given locals, between two items of its body. -/
structure C.Machine.Declares (machine : Machine) (locals : List LocalVar) : Prop where
  locals : machine.locals.map kind = LocalTable.shape locals
  temps : ∀ entry ∈ machine.temps, isTemporary entry.1 = true

end BytecodeToC
