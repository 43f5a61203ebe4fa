import BytecodeToC.Instr

/-!
What is known about the labels of the method being lowered: which of them something refers to, the
try regions that begin and end at them, and the number of regions open at a label. Depths are
computed on demand and remembered until a further region is registered.
-/

namespace BytecodeToC

structure MethodScope where
  referenced : List Label := []
  /-- In order of registration; a region's sequence number is its place. -/
  regions : List Region := []
  depths : List (Label × Nat) := []
deriving DecidableEq, Repr, Inhabited

namespace MethodScope

def empty : MethodScope := {}

def isReferenced (scope : MethodScope) (label : Label) : Bool := scope.referenced.contains label

def markReferenced (scope : MethodScope) (label : Label) : MethodScope :=
  if scope.isReferenced label then scope
  else { scope with referenced := scope.referenced ++ [label] }

def register (scope : MethodScope) (start finish handler : Label) (catchType : Option String) :
    Region × MethodScope :=
  let region : Region := { seq := scope.regions.length, start, finish, handler, catchType }
  let marked := ((scope.markReferenced start).markReferenced finish).markReferenced handler
  (region, { marked with regions := scope.regions ++ [region], depths := [] })

def hasRegions (scope : MethodScope) : Bool := !scope.regions.isEmpty

def region? (scope : MethodScope) (seq : Nat) : Option Region := scope.regions[seq]?

def beginningAt (scope : MethodScope) (label : Label) : List Region :=
  scope.regions.filter (·.start = label)

def endingAt (scope : MethodScope) (label : Label) : List Region :=
  scope.regions.filter (·.finish = label)

/-- Walks the labels up to `target`, with `depth` regions open at the first of them. -/
def depthFrom (scope : MethodScope) (target : Label) : Nat → List Label → Except Error Nat
  | _, [] => .error (.unsupported (.missingLabel target))
  | depth, label :: rest =>
    if label = target then .ok depth
    else
      let opened := depth + (scope.beginningAt label).length
      let closed := (scope.endingAt label).length
      if opened < closed then .error (.unbalanced (.tooManyCloses label))
      else scope.depthFrom target (opened - closed) rest

/-- The number of regions open at `target`, before the regions that begin or end there. -/
def catchDepth (scope : MethodScope) (target : Label) (labels : List Label) :
    Except Error Nat × MethodScope :=
  match scope.depths.lookup target with
  | some depth => (.ok depth, scope)
  | none =>
    match scope.depthFrom target 0 labels with
    | .ok depth => (.ok depth, { scope with depths := scope.depths ++ [(target, depth)] })
    | .error error => (.error error, scope)

theorem isReferenced_markReferenced (scope : MethodScope) (label other : Label) :
    (scope.markReferenced label).isReferenced other =
      (other = label || scope.isReferenced other) := by
  unfold markReferenced
  split
  · rename_i known
    by_cases same : other = label
    · simp [same, known]
    · simp [same]
  · simp [isReferenced, Bool.or_comm, eq_comm]

@[simp] theorem regions_markReferenced (scope : MethodScope) (label : Label) :
    (scope.markReferenced label).regions = scope.regions := by
  unfold markReferenced
  split <;> rfl

@[simp] theorem regions_catchDepth (scope : MethodScope) (target : Label) (labels : List Label) :
    (scope.catchDepth target labels).2.regions = scope.regions := by
  unfold catchDepth
  split
  · rfl
  · split <;> rfl

end MethodScope

end BytecodeToC
