import BytecodeToC.Proofs.DepthCache

/-!
The state of a unit kept in tables: under each label the numbers of the regions that begin and end
there and its depth, under each literal its offset. `UnitState` has no tables and searches its lists
of regions and literals. Whatever is done to both, they know the same and answer the same.
-/

namespace BytecodeToC

def Table (κ α : Type) : Type := κ → Option α

namespace Table

variable {κ α : Type}

def empty : Table κ α := fun _ => none

def insert [DecidableEq κ] (table : Table κ α) (key : κ) (value : α) : Table κ α :=
  fun other => if other = key then some value else table other

def listAt (table : Table κ (List α)) (key : κ) : List α := (table key).getD []

def push [DecidableEq κ] (table : Table κ (List α)) (key : κ) (value : α) : Table κ (List α) :=
  table.insert key (table.listAt key ++ [value])

theorem listAt_push [DecidableEq κ] (table : Table κ (List α)) (key : κ) (value : α) (other : κ) :
    (table.push key value).listAt other =
      table.listAt other ++ if key = other then [value] else [] := by
  by_cases same : other = key
  · subst same
    simp [push, listAt, insert]
  · simp [push, listAt, insert, same, Ne.symm same]

end Table

structure TabledUnit where
  referenced : Table Label Unit := .empty
  regions : List Region := []
  begins : Table Label (List Nat) := .empty
  ends : Table Label (List Nat) := .empty
  depths : Table Label Int := .empty
  entries : List PoolEntry := []
  index : Table PoolEntry Nat := .empty
  virtualCalls : NameSet := .empty

namespace TabledUnit

def beginMethod (unit : TabledUnit) : TabledUnit :=
  { entries := unit.entries, index := unit.index, virtualCalls := unit.virtualCalls }

def markReferenced (unit : TabledUnit) (label : Label) : TabledUnit :=
  { unit with referenced := unit.referenced.insert label () }

def register (unit : TabledUnit) (entry : TryEntry) : Nat × TabledUnit :=
  let seq := unit.regions.length
  let marked :=
    ((unit.markReferenced entry.start).markReferenced entry.finish).markReferenced entry.handler
  (seq,
    { marked with
      regions := unit.regions ++ [entry.region seq]
      begins := unit.begins.push entry.start seq
      ends := unit.ends.push entry.finish seq
      depths := .empty })

def intern (unit : TabledUnit) (entry : PoolEntry) : Nat × TabledUnit :=
  match unit.index entry with
  | some offset => (offset, unit)
  | none =>
    let offset := unit.entries.length
    (offset,
      { unit with entries := unit.entries ++ [entry], index := unit.index.insert entry offset })

def depthFrom (unit : TabledUnit) (target : Label) : Int → List Label → Except Error Int
  | _, [] => .error (.unsupported (.missingLabel target))
  | depth, label :: rest =>
    if label = target then .ok depth
    else
      let next := depth + (unit.begins.listAt label).length - (unit.ends.listAt label).length
      if next < 0 then .error (.unbalanced (.tooManyCloses label))
      else unit.depthFrom target next rest

def catchDepth (unit : TabledUnit) (target : Label) (labels : List Label) :
    Except Error Int × TabledUnit :=
  match unit.depths target with
  | some depth => (.ok depth, unit)
  | none =>
    match unit.depthFrom target 0 labels with
    | .ok depth => (.ok depth, { unit with depths := unit.depths.insert target depth })
    | .error error => (.error error, unit)

def apply (unit : TabledUnit) : UnitState.Operation → TabledUnit
  | .register entry => (unit.register entry).2
  | .markReferenced label => unit.markReferenced label
  | .intern entry => (unit.intern entry).2
  | .recordVirtualCall symbol => { unit with virtualCalls := unit.virtualCalls.insert symbol }
  | .beginMethod => unit.beginMethod
  | .reset => {}
  | .catchDepth target labels => (unit.catchDepth target labels).2

def after (history : List UnitState.Operation) : TabledUnit := history.foldl apply {}

structure Agrees (tabled : TabledUnit) (unit : UnitState) : Prop where
  referenced : ∀ label, (tabled.referenced label).isSome = unit.scope.isReferenced label
  regions : tabled.regions = unit.scope.regions
  begins : ∀ label, tabled.begins.listAt label = (unit.scope.beginningAt label).map (·.seq)
  ends : ∀ label, tabled.ends.listAt label = (unit.scope.endingAt label).map (·.seq)
  depths : ∀ label, tabled.depths label = (unit.scope.depths.lookup label).map Int.ofNat
  entries : tabled.entries = unit.pool.entries
  index : ∀ entry, tabled.index entry = unit.pool.entries.idxOf? entry
  virtualCalls : tabled.virtualCalls = unit.virtualCalls

variable {tabled : TabledUnit} {unit : UnitState}

theorem agrees_empty : Agrees {} .empty where
  referenced _ := rfl
  regions := rfl
  begins _ := rfl
  ends _ := rfl
  depths _ := rfl
  entries := rfl
  index _ := rfl
  virtualCalls := rfl

theorem Agrees.markReferenced (agrees : Agrees tabled unit) (label : Label) :
    Agrees (tabled.markReferenced label) (unit.apply (.markReferenced label)) where
  referenced other := by
    simp only [TabledUnit.markReferenced, Table.insert, UnitState.apply,
      MethodScope.isReferenced_markReferenced, ← agrees.referenced]
    by_cases same : other = label <;> simp [same]
  regions := agrees.regions.trans (MethodScope.regions_markReferenced ..).symm
  begins other := by
    rw [UnitState.apply, MethodScope.beginningAt, MethodScope.regions_markReferenced]
    exact agrees.begins other
  ends other := by
    rw [UnitState.apply, MethodScope.endingAt, MethodScope.regions_markReferenced]
    exact agrees.ends other
  depths other := by
    have same : (unit.scope.markReferenced label).depths = unit.scope.depths := by
      unfold MethodScope.markReferenced
      split <;> rfl
    rw [UnitState.apply, same]
    exact agrees.depths other
  entries := agrees.entries
  index := agrees.index
  virtualCalls := agrees.virtualCalls

theorem Agrees.register (agrees : Agrees tabled unit) (entry : TryEntry) :
    Agrees (tabled.register entry).2 (unit.apply (.register entry)) := by
  have marked := ((agrees.markReferenced entry.start).markReferenced entry.finish).markReferenced
    entry.handler
  refine ⟨marked.referenced, ?_, fun label => ?_, fun label => ?_, fun _ => rfl, agrees.entries,
    agrees.index, agrees.virtualCalls⟩
  · change tabled.regions ++ [entry.region tabled.regions.length] =
      unit.scope.regions ++ [entry.region unit.scope.regions.length]
    rw [agrees.regions]
  · change (tabled.begins.push entry.start tabled.regions.length).listAt label =
      ((unit.scope.regions ++ [entry.region unit.scope.regions.length]).filter
        (·.start = label)).map (·.seq)
    rw [Table.listAt_push, agrees.begins, agrees.regions, List.filter_append, List.map_append]
    by_cases here : entry.start = label <;> simp [here, TryEntry.region, MethodScope.beginningAt]
  · change (tabled.ends.push entry.finish tabled.regions.length).listAt label =
      ((unit.scope.regions ++ [entry.region unit.scope.regions.length]).filter
        (·.finish = label)).map (·.seq)
    rw [Table.listAt_push, agrees.ends, agrees.regions, List.filter_append, List.map_append]
    by_cases here : entry.finish = label <;> simp [here, TryEntry.region, MethodScope.endingAt]

theorem Agrees.intern (agrees : Agrees tabled unit) (entry : PoolEntry) :
    (tabled.intern entry).1 = (unit.pool.intern entry).1 ∧
      Agrees (tabled.intern entry).2 (unit.apply (.intern entry)) := by
  have found := agrees.index entry
  unfold TabledUnit.intern UnitState.apply ConstantPool.intern
  dsimp only
  cases known : unit.pool.entries.idxOf? entry with
  | some offset =>
      rw [known] at found
      rw [found]
      exact ⟨rfl, agrees⟩
  | none =>
      rw [known] at found
      rw [found]
      refine ⟨congrArg List.length agrees.entries, agrees.referenced, agrees.regions, agrees.begins,
        agrees.ends, agrees.depths, congrArg (· ++ [entry]) agrees.entries, fun other => ?_,
        agrees.virtualCalls⟩
      change (if other = entry then some tabled.entries.length else tabled.index other) =
        (unit.pool.entries ++ [entry]).idxOf? other
      rw [agrees.index, agrees.entries, List.idxOf?, List.findIdx?_append]
      by_cases same : other = entry
      · subst same
        rw [if_pos rfl, show unit.pool.entries.findIdx? (· == other) = none from known]
        simp
      · rw [if_neg same]
        simp [Ne.symm same]

theorem Agrees.depthFrom (agrees : Agrees tabled unit) (target : Label) (labels : List Label)
    (depth : Nat) :
    tabled.depthFrom target depth labels =
      (unit.scope.depthFrom target depth labels).map Int.ofNat := by
  induction labels generalizing depth with
  | nil => rfl
  | cons label rest ih =>
      have begins := congrArg List.length (agrees.begins label)
      have ends := congrArg List.length (agrees.ends label)
      rw [List.length_map] at begins ends
      rw [TabledUnit.depthFrom, MethodScope.depthFrom]
      split
      · rfl
      · dsimp only
        rw [begins, ends]
        by_cases short :
            depth + (unit.scope.beginningAt label).length < (unit.scope.endingAt label).length
        · rw [if_pos (by omega), if_pos short]
          rfl
        · rw [if_neg (by omega), if_neg short, ← ih]
          congr 1
          omega

theorem Agrees.catchDepth (agrees : Agrees tabled unit) (target : Label) (labels : List Label) :
    (tabled.catchDepth target labels).1 = (unit.scope.catchDepth target labels).1.map Int.ofNat ∧
      Agrees (tabled.catchDepth target labels).2 (unit.apply (.catchDepth target labels)) := by
  have found := agrees.depths target
  have computed := agrees.depthFrom target labels 0
  unfold TabledUnit.catchDepth UnitState.apply MethodScope.catchDepth
  dsimp only
  cases known : unit.scope.depths.lookup target with
  | some depth =>
      rw [known] at found
      rw [found]
      exact ⟨rfl, agrees⟩
  | none =>
      rw [known] at found
      rw [found]
      cases counted : unit.scope.depthFrom target 0 labels with
      | error error =>
          rw [counted] at computed
          rw [show tabled.depthFrom target 0 labels = .error error from computed]
          exact ⟨rfl, agrees⟩
      | ok depth =>
          rw [counted] at computed
          rw [show tabled.depthFrom target 0 labels = .ok (Int.ofNat depth) from computed]
          refine ⟨rfl, agrees.referenced, agrees.regions, agrees.begins, agrees.ends, fun other => ?_,
            agrees.entries, agrees.index, agrees.virtualCalls⟩
          change (if other = target then some (Int.ofNat depth) else tabled.depths other) =
            ((unit.scope.depths ++ [(target, depth)]).lookup other).map Int.ofNat
          rw [agrees.depths, List.lookup_append]
          by_cases same : other = target
          · subst same
            simp [known]
          · simp [same, beq_false_of_ne same, List.lookup_cons]

theorem Agrees.apply (agrees : Agrees tabled unit) (operation : UnitState.Operation) :
    Agrees (tabled.apply operation) (unit.apply operation) := by
  cases operation with
  | register entry => exact agrees.register entry
  | markReferenced label => exact agrees.markReferenced label
  | intern entry => exact (agrees.intern entry).2
  | recordVirtualCall symbol =>
      exact { agrees with virtualCalls := congrArg (NameSet.insert · symbol) agrees.virtualCalls }
  | beginMethod =>
      exact { agrees_empty with
        entries := agrees.entries, index := agrees.index, virtualCalls := agrees.virtualCalls }
  | reset => exact agrees_empty
  | catchDepth target labels => exact (agrees.catchDepth target labels).2

theorem agrees_after (history : List UnitState.Operation) :
    Agrees (after history) (UnitState.after history) := by
  induction history using List.reverseRecOn with
  | nil => exact agrees_empty
  | append_singleton earlier operation ih =>
      rw [after, UnitState.after, List.foldl_concat, List.foldl_concat]
      exact ih.apply operation

end TabledUnit

/-- After the same operations the tables hold what the lists are searched for, and a unit with tables
gives the same numbers to regions, the same offsets to literals and the same depths to labels. -/
theorem tables_agree_with_lists (history : List UnitState.Operation) :
    let tabled := TabledUnit.after history
    let unit := UnitState.after history
    (∀ label, (tabled.referenced label).isSome = unit.scope.isReferenced label ∧
      tabled.begins.listAt label = (unit.scope.beginningAt label).map (·.seq) ∧
      tabled.ends.listAt label = (unit.scope.endingAt label).map (·.seq) ∧
      tabled.depths label = (unit.scope.depths.lookup label).map Int.ofNat) ∧
    (tabled.regions = unit.scope.regions ∧ tabled.entries = unit.pool.entries ∧
      tabled.virtualCalls = unit.virtualCalls) ∧
    (∀ entry, (tabled.register entry).1 =
      (unit.scope.register entry.start entry.finish entry.handler entry.catchType).1.seq) ∧
    (∀ entry, (tabled.intern entry).1 = (unit.pool.intern entry).1) ∧
    ∀ target labels, (tabled.catchDepth target labels).1 =
      (unit.scope.catchDepth target labels).1.map Int.ofNat := by
  intro tabled unit
  have agrees : tabled.Agrees unit := TabledUnit.agrees_after history
  refine ⟨fun label => ⟨agrees.referenced label, agrees.begins label, agrees.ends label,
    agrees.depths label⟩, ⟨agrees.regions, agrees.entries, agrees.virtualCalls⟩, fun entry => ?_,
    fun entry => (agrees.intern entry).1, fun target labels => (agrees.catchDepth target labels).1⟩
  exact congrArg List.length agrees.regions

end BytecodeToC
