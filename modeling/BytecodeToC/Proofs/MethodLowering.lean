import BytecodeToC.LoweredUnit
import BytecodeToC.Proofs.Result

/-!
What a method that lowers successfully went through: its descriptor was read, its labels were checked,
and every instruction of its body was lowered.
-/

namespace BytecodeToC

open Result

def Listing.under (list : Listing) (options : Options) : Listing :=
  if options.reduce then list.fold.1 else list

namespace MethodScope

theorem firstRepeated?_eq_none {seen labels : List Label}
    (none : firstRepeated? seen labels = none) :
    labels.Nodup ∧ ∀ label ∈ labels, label ∉ seen := by
  induction labels generalizing seen with
  | nil => simp
  | cons label rest ih =>
      simp only [firstRepeated?] at none
      split at none
      next => simp at none
      next new =>
        obtain ⟨distinct, apart⟩ := ih none
        have here : label ∉ rest := fun member => apart label member (by simp)
        refine ⟨List.nodup_cons.mpr ⟨here, distinct⟩, ?_⟩
        intro other member
        rcases List.mem_cons.mp member with rfl | later
        · simpa using new
        · exact fun old => apart other later (by simp [old])

theorem isReferenced_markTargets {defined targets : List Label} {scope marked : MethodScope}
    (success : markTargets defined targets scope = (.ok (), marked)) {label : Label}
    (known : scope.isReferenced label = true) : marked.isReferenced label = true := by
  induction targets generalizing scope with
  | nil =>
      cases success
      exact known
  | cons target rest ih =>
      simp only [markTargets] at success
      split at success
      · exact ih success (by simp [isReferenced_markReferenced, known])
      · cases success

theorem markTargets_eq_ok {defined targets : List Label} {scope marked : MethodScope}
    (success : markTargets defined targets scope = (.ok (), marked)) :
    marked.regions = scope.regions ∧
      ∀ target ∈ targets, target ∈ defined ∧ marked.isReferenced target = true := by
  induction targets generalizing scope with
  | nil =>
      cases success
      simp
  | cons target rest ih =>
      simp only [markTargets] at success
      split at success
      next here =>
        obtain ⟨regions, others⟩ := ih success
        refine ⟨by simpa using regions, ?_⟩
        intro other member
        rcases List.mem_cons.mp member with rfl | later
        · refine ⟨by simpa using here, isReferenced_markTargets success ?_⟩
          simp [isReferenced_markReferenced]
        · exact others other later
      next => cases success

theorem markLabels_eq_ok {scope marked : MethodScope} {list : Listing}
    (success : scope.markLabels list = (.ok (), marked)) :
    list.labels.Nodup ∧ marked.regions = scope.regions ∧
      ∀ target ∈ scope.targets list, target ∈ list.labels ∧ marked.isReferenced target = true := by
  unfold markLabels at success
  split at success
  next => cases success
  next none => exact ⟨(firstRepeated?_eq_none none).1, markTargets_eq_ok success⟩

end MethodScope

namespace MethodHeader

theorem lowerTyped_eq (header : MethodHeader) (type : MethodType) (list : Listing)
    (index : ClassIndex) (options : Options) (unit : UnitState) :
    header.lowerTyped type list index options unit =
      match unit.scope.markLabels (list.under options) with
      | (.error error, scope) => (.error error, { unit with scope })
      | (.ok _, scope) =>
        match header.lowerBody (list.under options)
          (LocalTable.ofType (list.under options) header.isStatic type) index options.annotate
          { unit with scope } with
        | (.error error, after) => (.error error, after)
        | (.ok (body, virtualCalls), after) =>
          (.ok
            { function :=
                { symbol := Symbol.ofMethod header.owner header.name type
                  result := type.result
                  isStatic := header.isStatic
                  maxStack := header.maxStack
                  maxLocals := header.maxLocals
                  locals := LocalTable.ofType (list.under options) header.isStatic type
                  regions := after.scope.regions
                  body }
              dependencies := NameSet.ofList ((list.under options).instrs.flatMap Instr.dependencies)
              virtualCalls
              folds := if options.reduce then list.fold.2 else 0 }, after) := by
  unfold lowerTyped Listing.under
  cases options.reduce <;> rfl

/-- A lowered method, with the type its descriptor spells and the scope after its labels were
checked. -/
structure Lowers (header : MethodHeader) (list : Listing) (index : ClassIndex) (options : Options)
    (unit : UnitState) (lowered : LoweredMethod) (after : UnitState) (type : MethodType)
    (scope : MethodScope) : Prop where
  parsed : MethodType.parse header.descriptor = .ok type
  marked : unit.scope.markLabels (list.under options) = (.ok (), scope)
  locals : lowered.function.locals =
    LocalTable.ofType (list.under options) header.isStatic type
  body : header.lowerBody (list.under options) lowered.function.locals index options.annotate
    { unit with scope } = (.ok (lowered.function.body, lowered.virtualCalls), after)
  symbol : lowered.symbol = Symbol.ofMethod header.owner header.name type
  dependencies : lowered.dependencies =
    NameSet.ofList ((list.under options).instrs.flatMap Instr.dependencies)

theorem lower_eq_ok {header : MethodHeader} {list : Listing} {index : ClassIndex}
    {options : Options} {unit after : UnitState} {lowered : LoweredMethod}
    (success : header.lower list index options unit = (.ok lowered, after)) :
    ∃ type scope, header.Lowers list index options unit lowered after type scope := by
  unfold lower at success
  split at success
  next => simp at success
  next type parsed =>
    simp only [lowerTyped_eq] at success
    split at success
    next => simp at success
    next scope marked =>
      split at success
      next => simp at success
      next body virtualCalls last made =>
        simp only [mapError_ok, Prod.mk.injEq, Except.ok.injEq] at success
        obtain ⟨rfl, rfl⟩ := success
        exact ⟨type, scope, parsed, marked, rfl, made, rfl, rfl⟩

theorem Lowers.header_symbol {header : MethodHeader} {list : Listing} {index : ClassIndex}
    {options : Options} {unit after : UnitState} {lowered : LoweredMethod} {type : MethodType}
    {scope : MethodScope} (lowers : header.Lowers list index options unit lowered after type scope) :
    header.symbol = .ok lowered.symbol := by
  rw [lowers.symbol, MethodHeader.symbol, Symbol.ofDescriptor, lowers.parsed]
  rfl

def context (header : MethodHeader) (list : Listing) (locals : List LocalVar) (index : ClassIndex) :
    MethodContext :=
  { list, header, index, objectLocals := LocalTable.objectNames locals, labels := list.labels }

theorem lowerBody_eq (header : MethodHeader) (list : Listing) (locals : List LocalVar)
    (index : ClassIndex) (annotate : Bool) (unit : UnitState) {result : Except Error (List C.Item)}
    {state : BodyState}
    (ran : (Emission.body (header.context list locals index) annotate).run.run
      { scope := unit.scope } = (result, state)) :
    header.lowerBody list locals index annotate unit =
      (result.map fun items => (items, state.virtualCalls),
        { unit with
          scope := state.scope, virtualCalls := unit.virtualCalls.union state.virtualCalls }) := by
  simp only [context] at ran
  simp only [lowerBody, ran]

theorem lowerBody_eq_ok {header : MethodHeader} {list : Listing} {locals : List LocalVar}
    {index : ClassIndex} {annotate : Bool} {unit after : UnitState} {items : List C.Item}
    {virtualCalls : NameSet}
    (success : header.lowerBody list locals index annotate unit =
      (.ok (items, virtualCalls), after)) :
    ∃ state, (Emission.body (header.context list locals index) annotate).run.run
        { scope := unit.scope } = (.ok items, state) ∧
      virtualCalls = state.virtualCalls ∧
      after = { unit with
        scope := state.scope, virtualCalls := unit.virtualCalls.union state.virtualCalls } := by
  cases ran : (Emission.body (header.context list locals index) annotate).run.run
      { scope := unit.scope } with
  | mk result state =>
      rw [lowerBody_eq _ _ _ _ _ _ ran, Prod.mk.injEq, map_eq_ok_iff] at success
      obtain ⟨⟨given, rfl, same⟩, rfl⟩ := success
      cases same
      exact ⟨state, rfl, rfl, rfl⟩

end MethodHeader

theorem MethodDecl.lower_eq_ok {method : MethodDecl} {owner : String} {index : ClassIndex}
    {options : Options} {unit after : UnitState} {lowered : LoweredMethod}
    (success : method.lower owner index options unit = (.ok lowered, after)) :
    ∃ list assembled, method.assemble unit.beginMethod = (.ok list, assembled) ∧
      (method.header owner).lower list index options assembled = (.ok lowered, after) := by
  unfold MethodDecl.lower at success
  split at success
  next => simp at success
  next list assembled made => exact ⟨list, assembled, made, success⟩

end BytecodeToC
