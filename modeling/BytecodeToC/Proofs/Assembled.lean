import BytecodeToC.Proofs.FoldRun
import Mathlib.Data.List.Nodup

/-!
What assembly establishes besides the shape of the arena: a property of the instructions that records
make holds of every node, named accesses have passed their checks, and the try regions are the
entries of the exception table that are not empty, numbered by their places.
-/

namespace BytecodeToC

open Result

/-! Properties of all nodes -/

namespace Listing

theorem exists_load_of_endsWithReceiver {list : Listing} (ends : list.endsWithReceiver = true) :
    ∃ id op slot delta, list.order.getLast? = some id ∧
      list.node? id = some (.localVar op slot delta) := by
  unfold endsWithReceiver at ends
  split at ends
  next op slot delta found =>
    obtain ⟨id, last, node⟩ := Option.bind_eq_some_iff.mp found
    exact ⟨id, op, slot, delta, last, node⟩
  next => simp at ends

def AllNodes (list : Listing) (holds : Instr → Prop) : Prop :=
  ∀ (id : NodeId) (instr : Instr), list.node? id = some instr → holds instr

variable {holds : Instr → Prop}

theorem AllNodes.push {list : Listing} (all : list.AllNodes holds) {instr : Instr}
    (new : holds instr) : (list.push instr).2.AllNodes holds := by
  intro id other found
  simp only [Listing.push, alloc, node?, Array.getElem?_push] at found
  split at found
  next => cases found; exact new
  next => exact all id other found

theorem AllNodes.append {list : Listing} (all : list.AllNodes holds) (receiverStable : Bool)
    {instr : Instr} (new : holds instr)
    (direct : ∀ access, holds (.field access) → holds (.field { access with useThis := true })) :
    (list.append receiverStable instr).AllNodes holds := by
  unfold Listing.append
  split
  next access =>
    split
    · have popped : list.pop.2.AllNodes holds := all
      exact popped.push (direct access new)
    · exact all.push new
  next => exact all.push new

theorem AllNodes.mem_instrs {list : Listing} (all : list.AllNodes holds) {instr : Instr}
    (member : instr ∈ list.instrs) : holds instr := by
  obtain ⟨id, _, found⟩ := List.mem_filterMap.mp member
  exact all id instr found

theorem AllNodes.bindNameOf {list named : Listing} (all : list.AllNodes holds) {instr : Instr}
    (bound : list.bindNameOf instr = .ok named) : named.AllNodes holds := by
  obtain ⟨names, rfl⟩ := bindNameOf_eq_ok bound
  exact all

theorem AllNodes.appendRecords (receiverStable : Bool)
    (made : ∀ record instr pool, Record.instr record = .ok instr →
      holds (ConstantPool.place pool instr).1)
    (direct : ∀ access, holds (.field access) → holds (.field { access with useThis := true }))
    {records : List Record} {list result : Listing} {pool grown : ConstantPool}
    (all : list.AllNodes holds)
    (appended : Listing.appendRecords receiverStable records list pool = (.ok result, grown)) :
    result.AllNodes holds := by
  induction records generalizing list pool with
  | nil =>
      simp only [Listing.appendRecords, Prod.mk.injEq, Except.ok.injEq] at appended
      obtain ⟨rfl, rfl⟩ := appended
      exact all
  | cons record rest ih =>
      simp only [Listing.appendRecords] at appended
      split at appended
      next => simp at appended
      next instr read =>
        split at appended
        next => simp at appended
        next named bound =>
          have new := made record instr pool read
          exact ih ((all.bindNameOf bound).append receiverStable new direct) appended

theorem AllNodes.appendRegions {entries : List TryEntry} {list : Listing} {scope : MethodScope}
    (all : list.AllNodes holds) (regions : ∀ region, holds (.tryRegion region)) :
    (Listing.appendRegions entries list scope).1.AllNodes holds := by
  induction entries generalizing list scope with
  | nil => exact all
  | cons entry rest ih =>
      simp only [Listing.appendRegions]
      split
      · exact ih all
      · exact ih (all.push (regions _))

end Listing

theorem MethodDecl.assemble_eq_ok {method : MethodDecl} {unit after : UnitState} {list : Listing}
    (assembled : method.assemble unit = (.ok list, after)) :
    ∃ pool, Listing.appendRecords method.receiverStable method.code
        (Listing.appendRegions method.tryCatch .empty unit.scope).1 unit.pool = (.ok list, pool) ∧
      after = { unit with
        scope := (Listing.appendRegions method.tryCatch .empty unit.scope).2, pool } := by
  simp only [MethodDecl.assemble, Prod.mk.injEq] at assembled
  exact ⟨_, Prod.ext assembled.1 rfl, assembled.2.symm⟩

theorem MethodDecl.allNodes_assemble {holds : Instr → Prop}
    (made : ∀ record instr pool, Record.instr record = .ok instr →
      holds (ConstantPool.place pool instr).1)
    (direct : ∀ access, holds (.field access) → holds (.field { access with useThis := true }))
    (regions : ∀ region, holds (.tryRegion region))
    {method : MethodDecl} {unit after : UnitState} {list : Listing}
    (assembled : method.assemble unit = (.ok list, after)) : list.AllNodes holds := by
  obtain ⟨pool, appended, _⟩ := MethodDecl.assemble_eq_ok assembled
  have empty : Listing.empty.AllNodes holds := by
    intro id instr found
    simp [Listing.empty, Listing.node?] at found
  exact Listing.AllNodes.appendRecords _ made direct (empty.appendRegions regions) appended

/-! Named accesses -/

def Instr.Checked : Instr → Prop
  | .namedLocal op slot name tag _ => LocalName.check op slot name tag = .ok ()
  | _ => True

theorem Record.checked_instr {record : Record} {instr : Instr} (made : record.instr = .ok instr) :
    instr.Checked := by
  cases Record.makes_of_instr made with
  | namedLocal checked => exact checked
  | namedIncrement checked => exact checked
  | _ => trivial

theorem ConstantPool.checked_place (pool : ConstantPool) {instr : Instr} (checked : instr.Checked) :
    (pool.place instr).1.Checked := by
  unfold place
  split
  · trivial
  · trivial
  · exact checked

theorem MethodDecl.checked_assemble {method : MethodDecl} {unit after : UnitState} {list : Listing}
    (assembled : method.assemble unit = (.ok list, after)) : list.AllNodes Instr.Checked := by
  refine MethodDecl.allNodes_assemble ?_ (fun _ _ => trivial) (fun _ => trivial) assembled
  intro record instr pool made
  exact pool.checked_place (Record.checked_instr made)

/-! Try regions -/

namespace TryTable

def Numbered (regions : List Region) : Prop :=
  regions.map (·.seq) = List.range regions.length

namespace Numbered

variable {regions : List Region} (numbered : Numbered regions)
include numbered

theorem nodup_seq : (regions.map (·.seq)).Nodup := by
  rw [numbered]
  exact List.nodup_range

theorem nodup : regions.Nodup := numbered.nodup_seq.of_map

theorem pairwise : regions.Pairwise fun first second => first.seq < second.seq := by
  rw [← List.pairwise_map (R := (· < ·)), numbered]
  exact List.pairwise_lt_range

theorem seq_injective {first second : Region} (one : first ∈ regions) (other : second ∈ regions)
    (same : first.seq = second.seq) : first = second :=
  List.inj_on_of_nodup_map numbered.nodup_seq one other same

end Numbered

theorem numbered_register {scope : MethodScope} (numbered : Numbered scope.regions)
    (start finish handler : Label) (catchType : Option String) :
    Numbered (scope.register start finish handler catchType).2.regions := by
  simpa [Numbered, MethodScope.register, List.range_succ] using numbered

theorem numbered_appendRegions {scope : MethodScope} (numbered : Numbered scope.regions)
    (entries : List TryEntry) (list : Listing) :
    Numbered (Listing.appendRegions entries list scope).2.regions := by
  induction entries generalizing list scope with
  | nil => exact numbered
  | cons entry rest ih =>
      unfold Listing.appendRegions
      split
      · exact ih numbered list
      · exact ih (numbered_register numbered ..) _

end TryTable

def TryEntry.region (entry : TryEntry) (seq : Nat) : Region :=
  { seq, start := entry.start, finish := entry.finish, handler := entry.handler
    catchType := entry.catchType }

def MethodDecl.regions (method : MethodDecl) : List Region :=
  (method.tryCatch.filter fun entry => entry.start ≠ entry.finish).zipIdx.map fun numbered =>
    numbered.1.region numbered.2

theorem Listing.regions_appendRegions (entries : List TryEntry) (list : Listing)
    (scope : MethodScope) :
    (appendRegions entries list scope).2.regions = scope.regions ++
      ((entries.filter fun entry => entry.start ≠ entry.finish).zipIdx scope.regions.length).map
        fun numbered => numbered.1.region numbered.2 := by
  induction entries generalizing list scope with
  | nil => simp [appendRegions]
  | cons entry rest ih =>
      by_cases empty : entry.start = entry.finish
      · simp [appendRegions, empty, ih]
      · simp [appendRegions, empty, ih, MethodScope.register, TryEntry.region]

theorem MethodDecl.regions_assemble {method : MethodDecl} {unit after : UnitState} {list : Listing}
    (assembled : method.assemble unit.beginMethod = (.ok list, after)) :
    after.scope.regions = method.regions := by
  obtain ⟨pool, _, rfl⟩ := MethodDecl.assemble_eq_ok assembled
  simp [Listing.regions_appendRegions, MethodDecl.regions, UnitState.beginMethod,
    MethodScope.empty]

theorem MethodDecl.numbered_regions (method : MethodDecl) : TryTable.Numbered method.regions := by
  have registered : (Listing.appendRegions method.tryCatch .empty .empty).2.regions = method.regions :=
    Listing.regions_appendRegions method.tryCatch .empty .empty
  have fresh : TryTable.Numbered MethodScope.empty.regions := rfl
  rw [← registered]
  exact TryTable.numbered_appendRegions fresh method.tryCatch .empty

theorem MethodDecl.nodup_regions (method : MethodDecl) :
    (method.regions.map (·.seq)).Nodup :=
  method.numbered_regions.nodup_seq

end BytecodeToC
