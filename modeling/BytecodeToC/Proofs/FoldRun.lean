import BytecodeToC.Proofs.FoldStep
import BytecodeToC.Proofs.Records

/-!
Sequences of folds. An assembled listing has no expression nodes yet; folding it is one sequence of
folds among others, and ends where nothing folds any more.
-/

namespace BytecodeToC

theorem Record.operands_instr {record : Record} {instr : Instr} (made : record.instr = .ok instr) :
    instr.operands = [] := by
  cases Record.makes_of_instr made <;> rfl

theorem ConstantPool.operands_place (pool : ConstantPool) {instr : Instr}
    (elementary : instr.operands = []) : (pool.place instr).1.operands = [] := by
  unfold place
  split
  · rfl
  · rfl
  · exact elementary

namespace Listing

/-- The nodes refer to none, and the order runs through some of them without repetition. -/
structure Elementary (list : Listing) : Prop where
  leaves : ∀ (id : Nat) (instr : Instr), list.node? id = some instr → instr.operands = []
  known : ∀ id : Nat, id ∈ list.order → id < list.nodes.size
  distinct : list.order.Nodup

theorem Elementary.empty : Elementary empty := by
  constructor
  · intro id instr found
    simp [Listing.empty, node?] at found
  · simp [Listing.empty]
  · simp [Listing.empty]

theorem Elementary.push {list : Listing} (elementary : list.Elementary) {instr : Instr}
    (leaf : instr.operands = []) : (list.push instr).2.Elementary := by
  constructor
  · intro id other found
    simp only [Listing.push, alloc, node?, Array.getElem?_push] at found
    split at found
    next => cases found; exact leaf
    next => exact elementary.leaves id other found
  · intro id member
    simp only [order_push, List.mem_append, List.mem_singleton] at member
    simp only [Listing.push, alloc, Array.size_push]
    rcases member with older | rfl
    · have bound := elementary.known id older
      omega
    · omega
  · rw [order_push, List.nodup_append]
    refine ⟨elementary.distinct, by simp, ?_⟩
    intro id older other fresh same
    obtain rfl := List.mem_singleton.mp fresh
    exact absurd same (Nat.ne_of_lt (elementary.known id older))

theorem Elementary.pop {list : Listing} (elementary : list.Elementary) :
    list.pop.2.Elementary := by
  constructor
  · exact elementary.leaves
  · intro id member
    exact elementary.known id ((List.dropLast_sublist _).subset member)
  · exact elementary.distinct.sublist (List.dropLast_sublist _)

theorem bindName_eq_ok {list named : Listing} {slot : Slot} {type : StackType} {name : String}
    (bound : list.bindName slot type name = .ok named) :
    ∃ names, named = { list with names } := by
  unfold bindName at bound
  split at bound
  · split at bound
    · cases bound
      exact ⟨list.names, rfl⟩
    · simp at bound
  · split at bound
    · simp at bound
    · cases bound
      exact ⟨_, rfl⟩

theorem bindNameOf_eq_ok {list named : Listing} {instr : Instr}
    (bound : list.bindNameOf instr = .ok named) : ∃ names, named = { list with names } := by
  unfold bindNameOf at bound
  split at bound
  · split at bound
    · exact bindName_eq_ok bound
    · cases bound
      exact ⟨list.names, rfl⟩
  · cases bound
    exact ⟨list.names, rfl⟩

theorem Elementary.bindNameOf {list named : Listing} (elementary : list.Elementary) {instr : Instr}
    (bound : list.bindNameOf instr = .ok named) : named.Elementary := by
  obtain ⟨names, rfl⟩ := bindNameOf_eq_ok bound
  exact ⟨elementary.leaves, elementary.known, elementary.distinct⟩

theorem Elementary.append {list : Listing} (elementary : list.Elementary) (receiverStable : Bool)
    {instr : Instr} (leaf : instr.operands = []) :
    (list.append receiverStable instr).Elementary := by
  unfold Listing.append
  split
  · split
    · exact elementary.pop.push rfl
    · exact elementary.push leaf
  · exact elementary.push leaf

theorem Elementary.appendRecords (receiverStable : Bool) {records : List Record}
    {list result : Listing} {pool grown : ConstantPool} (elementary : list.Elementary)
    (appended : Listing.appendRecords receiverStable records list pool = (.ok result, grown)) :
    result.Elementary := by
  induction records generalizing list pool with
  | nil =>
      simp only [Listing.appendRecords, Prod.mk.injEq, Except.ok.injEq] at appended
      obtain ⟨rfl, rfl⟩ := appended
      exact elementary
  | cons record rest ih =>
      simp only [Listing.appendRecords] at appended
      split at appended
      next => simp at appended
      next instr made =>
        split at appended
        next => simp at appended
        next named bound =>
          have leaf := pool.operands_place (Record.operands_instr made)
          exact ih ((elementary.bindNameOf bound).append receiverStable leaf) appended

theorem Elementary.appendRegions {entries : List TryEntry} {list : Listing} {scope : MethodScope}
    (elementary : list.Elementary) : (Listing.appendRegions entries list scope).1.Elementary := by
  induction entries generalizing list scope with
  | nil => exact elementary
  | cons entry rest ih =>
      simp only [Listing.appendRegions]
      split
      · exact ih elementary
      · exact ih (elementary.push rfl)

theorem Elementary.represents {list : Listing} (elementary : list.Elementary) :
    list.Represents (list.instrs.map .leaf) := by
  constructor
  · intro id instr found operand refers
    simp [elementary.leaves id instr found] at refers
  · have known := elementary.known
    unfold StandsFor instrs
    generalize list.order = order at known ⊢
    induction order with
    | nil => exact .nil
    | cons id rest ih =>
        obtain ⟨instr, found⟩ : ∃ instr, list.node? id = some instr :=
          ⟨_, Array.getElem?_eq_getElem (known id (by simp))⟩
        simp only [List.filterMap_cons, found, List.map_cons]
        exact .cons (.leaf found (elementary.leaves id instr found))
          (ih fun other member => known other (by simp [member]))

end Listing

theorem MethodDecl.elementary_assemble {method : MethodDecl} {unit after : UnitState}
    {list : Listing} (assembled : method.assemble unit = (.ok list, after)) : list.Elementary := by
  simp only [MethodDecl.assemble, Prod.mk.injEq] at assembled
  exact Listing.Elementary.appendRecords _ (Listing.Elementary.appendRegions .empty)
    (Prod.ext assembled.1 rfl)

namespace ExprTree

inductive Steps (list : Listing) : Nat → List ExprTree → List ExprTree → Prop
  | done (forest : List ExprTree) : Steps list 0 forest forest
  | step {count forest next last} (first : Step list forest next)
      (rest : Steps list count next last) : Steps list (count + 1) forest last

theorem Steps.code_eq {list : Listing} {count : Nat} {forest last : List ExprTree}
    (steps : Steps list count forest last) : last.flatMap code = forest.flatMap code := by
  induction steps with
  | done forest => rfl
  | step first rest ih => exact ih.trans first.code_eq

theorem Steps.of_names {list next : Listing} (same : next.names = list.names) {count : Nat}
    {forest last : List ExprTree} (steps : Steps list count forest last) :
    Steps next count forest last := by
  induction steps with
  | done forest => exact .done forest
  | step first rest ih => exact .step (first.of_names same) ih

end ExprTree

namespace Listing

inductive FoldRun : Nat → Listing → Listing → Prop
  | done (list : Listing) : FoldRun 0 list list
  | step {count pos start list next last} (folded : list.foldAt? pos = some (start, next))
      (rest : FoldRun count next last) : FoldRun (count + 1) list last

def Settled (list : Listing) : Prop := ∀ pos, list.foldAt? pos = none

theorem Represents.foldRun {list last : Listing} {forest : List ExprTree} {count : Nat}
    (represents : list.Represents forest) (run : FoldRun count list last) :
    ∃ shorter, ExprTree.Steps list count forest shorter ∧ last.Represents shorter ∧
      last.names = list.names := by
  induction run generalizing forest with
  | done list => exact ⟨forest, .done forest, represents, rfl⟩
  | step folded rest ih =>
      obtain ⟨next, first, nextRepresents, same⟩ := represents.foldAt? folded
      obtain ⟨shorter, steps, lastRepresents, sameRest⟩ := ih nextRepresents
      exact ⟨shorter, .step first (steps.of_names same.symm), lastRepresents, sameRest.trans same⟩

theorem FoldRun.trans {first second : Nat} {list middle last : Listing}
    (before : FoldRun first list middle) (after : FoldRun second middle last) :
    FoldRun (first + second) list last := by
  induction before with
  | done list => simpa using after
  | @step count pos start list next middle folded rest ih =>
      rw [Nat.add_right_comm]
      exact .step folded (ih after)

theorem length_foldAt? {list next : Listing} {pos start : Nat}
    (folded : list.foldAt? pos = some (start, next)) : next.order.length < list.order.length := by
  obtain ⟨before, operands, operator, after, op, immediate, node, split, found, foldable, rfl, rfl,
    rfl⟩ := (foldAt?_eq_some_iff ..).mp folded
  have positive : 0 < operands.length := by cases foldable <;> simp
  simp only [withNode, split, List.length_append, List.length_cons]
  omega

theorem FoldRun.length_le {count : Nat} {list last : Listing} (run : FoldRun count list last) :
    last.order.length + count ≤ list.order.length := by
  induction run with
  | done list => simp
  | step folded rest ih =>
      have shorter := length_foldAt? folded
      omega

theorem foldAt?_of_length_le {list : Listing} {pos : Nat} (past : list.order.length ≤ pos) :
    list.foldAt? pos = none := by
  simp [foldAt?, at?, past]

theorem foldPass_run (steps : Nat) (list : Listing) (pos : Nat) :
    FoldRun (foldPass steps list pos).2 list (foldPass steps list pos).1 := by
  induction steps generalizing list pos with
  | zero => exact .done list
  | succ steps ih =>
      simp only [foldPass]
      split
      next start folded found => exact .step found (ih folded (start + 1))
      next => exact ih list (pos + 1)

theorem foldPass_idle {steps : Nat} {list : Listing} {pos : Nat}
    (idle : (foldPass steps list pos).2 = 0) :
    (foldPass steps list pos).1 = list ∧
      ∀ offset < steps, list.foldAt? (pos + offset) = none := by
  induction steps generalizing pos with
  | zero => simp [foldPass]
  | succ steps ih =>
      simp only [foldPass] at idle ⊢
      split at idle
      next => simp at idle
      next unfolded =>
        obtain ⟨same, rest⟩ := ih idle
        refine ⟨same, ?_⟩
        intro offset below
        cases offset with
        | zero => exact unfolded
        | succ offset =>
            have later := rest offset (by omega)
            rwa [show pos + (offset + 1) = pos + 1 + offset by omega]

theorem settled_of_idle {list : Listing} (idle : (foldPass list.order.length list 0).2 = 0) :
    list.Settled := by
  intro pos
  by_cases within : pos < list.order.length
  · simpa using (foldPass_idle idle).2 pos within
  · exact foldAt?_of_length_le (by omega)

theorem foldPass_of_settled {list : Listing} (settled : list.Settled) (steps pos : Nat) :
    foldPass steps list pos = (list, 0) := by
  induction steps generalizing pos with
  | zero => rfl
  | succ steps ih => simp [foldPass, settled pos, ih]

theorem foldPasses_run (passes : Nat) (list : Listing) :
    FoldRun (foldPasses passes list).2 list (foldPasses passes list).1 := by
  induction passes generalizing list with
  | zero => exact .done list
  | succ passes ih =>
      have pass := foldPass_run list.order.length list 0
      simp only [foldPasses]
      split
      next folded idle => simpa [idle] using pass
      next folded folds busy found =>
        simp only [found] at pass
        exact pass.trans (ih folded)

theorem foldPasses_settled {passes : Nat} {list : Listing} (enough : list.order.length < passes) :
    (foldPasses passes list).1.Settled := by
  -- Every pass that folds shortens the order, so the passes do not run out before one is idle.
  induction passes generalizing list with
  | zero => omega
  | succ passes ih =>
      have pass := foldPass_run list.order.length list 0
      simp only [foldPasses]
      split
      next folded idle =>
        have still : (foldPass list.order.length list 0).2 = 0 := by simp [idle]
        have same := (foldPass_idle still).1
        simp only [idle] at same
        rw [same]
        exact settled_of_idle still
      next folded folds busy found =>
        simp only [found] at pass
        have shorter := pass.length_le
        have some : folds ≠ 0 := by
          intro none
          exact busy (by simp [none])
        exact ih (by omega)

theorem fold_run (list : Listing) : FoldRun list.fold.2 list list.fold.1 := foldPasses_run _ _

theorem fold_settled (list : Listing) : list.fold.1.Settled := foldPasses_settled (by omega)

theorem fold_of_settled {list : Listing} (settled : list.Settled) : list.fold = (list, 0) := by
  simp [fold, foldPasses, foldPass_of_settled settled]

end Listing

namespace Sample

/-- `values.length / scale + values[scale]`: two expressions that may raise an exception, so that the
addition cannot take both into one. -/
def method : MethodDecl :=
  { name := "pick", descriptor := "([II)I", isStatic := true, maxStack := 3, maxLocals := 2
    code :=
      [.simple "aload_0" none, .simple "arraylength" none, .simple "iload_1" none,
       .simple "idiv" none, .simple "aload_0" none, .simple "iload_1" none, .simple "iaload" none,
       .simple "iadd" none, .simple "ireturn" none]
    tryCatch := [] }

def listing : Listing :=
  { nodes := #[.localVar .aload 0 none, .basic .arraylength none, .localVar .iload 1 none,
      .basic ⟨0x6c⟩ none, .localVar .aload 0 none, .localVar .iload 1 none, .basic ⟨0x2e⟩ none,
      .basic ⟨0x60⟩ none, .basic .ireturn none]
    order := [0, 1, 2, 3, 4, 5, 6, 7, 8] }

def folded : Listing :=
  { listing with
    nodes := listing.nodes ++ #[.arrayLoad ⟨0x2e⟩ 4 5, .arrayLength 0, .arith ⟨0x6c⟩ 10 (some 2)]
    order := [11, 9, 7, 8] }

theorem foldRun : Listing.FoldRun 3 listing folded :=
  .step (show listing.foldAt? 6 = some (4, _) from rfl)
    (.step (show Listing.foldAt? _ 1 = some (0, _) from rfl)
      (.step (show Listing.foldAt? _ 2 = some (0, folded) from rfl) (.done folded)))

theorem folded_settled : folded.Settled := Listing.settled_of_idle (by decide)

end Sample

end BytecodeToC
