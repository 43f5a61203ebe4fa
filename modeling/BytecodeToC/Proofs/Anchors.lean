import BytecodeToC.Proofs.TryScopes
import BytecodeToC.Proofs.Absorption

/-!
Label anchors. A lowered body has one anchor for each label that something in the method refers to, and
no others, so that whatever the body names as a destination is there once. A method whose labels do
not allow this is not lowered.

References are recorded at two times, for try regions while the listing is assembled and for branches
after it was folded. Both are read off the records of the method here.
-/

namespace BytecodeToC

open Result

/-! Labels of a method -/

def Record.label? : Record → Option Label
  | .label id => some id
  | _ => none

def Record.jumpTargets : Record → List Label
  | .jump _ target _ => [target]
  | .switch default _ _ targets => targets ++ default.toList
  | _ => []

def TryEntry.labels (entry : TryEntry) : List Label := [entry.start, entry.finish, entry.handler]

namespace MethodDecl

def labels (method : MethodDecl) : List Label := method.code.filterMap Record.label?

/-- The labels that branches, switches and try regions refer to. Entries without extent do not count. -/
def references (method : MethodDecl) : List Label :=
  method.code.flatMap Record.jumpTargets ++
    (method.tryCatch.filter fun entry => entry.start ≠ entry.finish).flatMap TryEntry.labels

end MethodDecl

namespace Record

end Record

/-! What an assembled listing has from its records -/

namespace Listing

variable {α : Type} {contribute : Instr → List α}

theorem Elementary.instrs_push {list : Listing} (elementary : list.Elementary) (instr : Instr) :
    (list.push instr).2.instrs = list.instrs ++ [instr] := by
  have older : list.order.filterMap (list.push instr).2.node? = list.order.filterMap list.node? :=
    List.filterMap_congr fun id member => list.node?_alloc_of_lt instr (elementary.known id member)
  have newest : (list.push instr).2.node? list.nodes.size = some instr := list.node?_alloc_self instr
  rw [instrs, order_push, List.filterMap_append, older]
  simp [newest, instrs]

section

variable (loads : ∀ op slot delta, contribute (.localVar op slot delta) = [])
include loads

theorem flatMap_pop {list : Listing} (ends : list.endsWithReceiver = true) :
    list.pop.2.instrs.flatMap contribute = list.instrs.flatMap contribute := by
  obtain ⟨id, op, slot, delta, last, load⟩ := exists_load_of_endsWithReceiver ends
  have parts : list.instrs = list.pop.2.instrs ++ [.localVar op slot delta] := by
    have order := List.dropLast_append_getLast? id last
    rw [instrs, ← order, List.filterMap_append, List.filterMap_cons_some load]
    rfl
  rw [parts, List.flatMap_append]
  simp [loads]

variable (fields : ∀ access, contribute (.field access) = [])
include fields

theorem Elementary.flatMap_append {list : Listing} (elementary : list.Elementary)
    (receiverStable : Bool) (instr : Instr) :
    (list.append receiverStable instr).instrs.flatMap contribute =
      list.instrs.flatMap contribute ++ contribute instr := by
  have pushed {list : Listing} (elementary : list.Elementary) (instr : Instr) :
      (list.push instr).2.instrs.flatMap contribute =
        list.instrs.flatMap contribute ++ contribute instr := by
    rw [elementary.instrs_push, List.flatMap_append, List.flatMap_singleton]
  unfold Listing.append
  split
  next access =>
    split
    next merged =>
      simp only [Bool.and_eq_true] at merged
      rw [pushed elementary.pop, flatMap_pop loads merged.2, fields, fields]
    next => exact pushed elementary _
  next => exact pushed elementary _

end

end Listing

namespace MethodDecl

variable {method : MethodDecl} {unit after : UnitState} {list : Listing}
  (assembled : method.assemble unit = (.ok list, after))
include assembled

end MethodDecl

/-! References -/

namespace MethodScope

end MethodScope

namespace MethodDecl

variable {method : MethodDecl} {unit assembled : UnitState} {list : Listing} {options : Options}
  (made : method.assemble unit.beginMethod = (.ok list, assembled))
include made

end MethodDecl

/-! Emitted bodies -/

namespace C

def Item.anchor? : Item → Option Label
  | .anchor label => some label
  | _ => none

def Stmt.handler? : Stmt → Option Label
  | .beginTry _ handler _ => some handler
  | _ => none

def Item.handlers : Item → List Label
  | .stmt single => single.handler?.toList
  | .block body => body.filterMap Stmt.handler?
  | _ => []

def Item.destinations (item : Item) : List Label := item.jumps.map (·.target) ++ item.handlers

end C

namespace Emission

open C Emit

/-- What an instruction may name in a body with the try regions `regions`. -/
def Names (regions : List Region) (instruction : Instr) (label : Label) : Prop :=
  label ∈ instruction.jumpTargets ∨ ∃ region ∈ regions, region.handler = label

/-- Anchors stand where labels were, if something refers to them, and the items name targets and
handlers only. -/
structure Anchored (scope : MethodScope) (instructions : List Instr) (items : List Item) : Prop where
  anchors : items.filterMap Item.anchor? =
    (instructions.filterMap Listing.labelOf?).filter scope.isReferenced
  named : ∀ label ∈ items.flatMap Item.destinations,
    ∃ instruction ∈ instructions, Names scope.regions instruction label

theorem Anchored.congr {scope other : MethodScope} {instructions : List Instr} {items : List Item}
    (anchored : Anchored scope instructions items) (regions : scope.regions = other.regions)
    (referenced : scope.referenced = other.referenced) : Anchored other instructions items := by
  have same : scope.isReferenced = other.isReferenced := by
    funext label
    simp only [MethodScope.isReferenced, referenced]
  exact ⟨same ▸ anchored.anchors, regions ▸ anchored.named⟩

theorem Anchored.append {scope : MethodScope} {instruction : Instr} {rest : List Instr}
    {first others : List Item} (here : Anchored scope [instruction] first)
    (later : Anchored scope rest others) : Anchored scope (instruction :: rest) (first ++ others) where
  anchors := by
    have parts : instruction :: rest = [instruction] ++ rest := rfl
    rw [parts, List.filterMap_append, List.filterMap_append, here.anchors, later.anchors,
      List.filter_append]
  named := by
    intro label member
    rw [List.flatMap_append, List.mem_append] at member
    rcases member with early | late
    · obtain ⟨other, same, names⟩ := here.named label early
      exact ⟨instruction, by simp, List.mem_singleton.mp same ▸ names⟩
    · obtain ⟨other, stands, names⟩ := later.named label late
      exact ⟨other, by simp [stands], names⟩

end Emission

end BytecodeToC
