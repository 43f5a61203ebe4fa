import BytecodeToC.Proofs.Absorption
import BytecodeToC.Proofs.Assembled
import BytecodeToC.Proofs.MethodLowering
import BytecodeToC.Proofs.Refusal

/-!
Folding and the checks of lowering. A part of an expression passes every check of its own, except
that a static method has no current object whose field could be read. So folding changes nothing
about what is accepted, nor about the state in which lowering ends, unless it takes such a read out of
a static method.
-/

namespace BytecodeToC

open Result

namespace Emit

variable {α β : Type}

def effects (action : Emit α) : Emit Unit := (fun _ => ()) <$> action

theorem run_effects (action : Emit α) (state : BodyState) :
    (effects action).run.run state =
      ((action.run.run state).1.map fun _ => (), (action.run.run state).2) := by
  simp only [effects, ExceptT.run_map, StateT.run_map]
  rfl

theorem run_of_effects {action : Emit α} {other : Emit β} (same : effects action = effects other)
    (state : BodyState) :
    (action.run.run state).1.map (fun _ => ()) = (other.run.run state).1.map (fun _ => ()) ∧
      (action.run.run state).2 = (other.run.run state).2 := by
  have runs := congrArg (fun given => given.run.run state) same
  simp only [run_effects] at runs
  exact ⟨congrArg Prod.fst runs, congrArg Prod.snd runs⟩

theorem effects_bind (action : Emit α) (next : α → Emit β) :
    effects (action >>= next) = action >>= fun value => effects (next value) := by
  simp [effects]

theorem effects_lift_of_ok {result : Except Error α} {value : α} (accepted : result = .ok value) :
    effects (liftM result : Emit α) = pure () := by
  subst accepted
  rfl

theorem effects_lift_congr {result : Except Error α} {other : Except Error β}
    (same : result.map (fun _ => ()) = other.map (fun _ => ())) :
    effects (liftM result : Emit α) = effects (liftM other : Emit β) := by
  cases result <;> cases other <;> cases same <;> rfl

def Refuses (action : Emit α) : Prop := ∀ state value, (action.run.run state).1 ≠ .ok value

theorem Refuses.bind {action : Emit α} (refuses : Refuses action) (next : α → Emit β) :
    Refuses (action >>= next) := by
  intro state value succeeded
  rw [run_bind] at succeeded
  split at succeeded
  next given after ran => exact refuses state given (by rw [ran])
  next => simp at succeeded

theorem Refuses.of_next (action : Emit α) {next : α → Emit β}
    (refuses : ∀ value, Refuses (next value)) : Refuses (action >>= next) := by
  intro state value succeeded
  rw [run_bind] at succeeded
  split at succeeded
  next given after ran => exact refuses given after value succeeded
  next => simp at succeeded

theorem Refuses.forM {action : α → Emit Unit} {value : α} (refuses : Refuses (action value)) :
    ∀ {values : List α}, value ∈ values → Refuses (forM values action)
  | _ :: rest, member => by
      rw [List.forM_cons]
      rcases List.mem_cons.mp member with rfl | later
      · exact refuses.bind _
      · exact .of_next _ fun _ => Refuses.forM refuses later

theorem refuses_lift (error : Error) : Refuses (liftM (.error error : Except Error α) : Emit α) := by
  intro state value succeeded
  cases succeeded

@[simp] theorem refuses_effects (action : Emit α) : Refuses (effects action) ↔ Refuses action := by
  simp only [Refuses, run_effects, ne_eq, map_eq_ok_iff]
  simp

theorem forM_congr {action other : α → Emit Unit} {values : List α}
    (same : ∀ value ∈ values, action value = other value) :
    forM values action = forM values other := by
  induction values with
  | nil => rfl
  | cons value rest ih =>
      rw [List.forM_cons, List.forM_cons, same value (by simp),
        ih fun later member => same later (by simp [member])]

theorem forM_filter {action : α → Emit Unit} {keep : α → Bool} {values : List α}
    (idle : ∀ value ∈ values, keep value = false → action value = pure ()) :
    forM (values.filter keep) action = forM values action := by
  induction values with
  | nil => rfl
  | cons value rest ih =>
      have others := ih fun other member => idle other (by simp [member])
      cases kept : keep value with
      | true => simp [kept, others]
      | false => simp [kept, others, idle value (by simp) kept]

end Emit

def Instr.readsReceiver : Instr → Bool
  | .field access => access.op = .getfield && access.useThis
  | _ => false

theorem Opcode.isSome_elementType? {op : Opcode} (load : op.isArrayLoad = true) :
    op.elementType?.isSome = true := by
  have bounds : 0x2e ≤ op.byte.toNat ∧ op.byte.toNat ≤ 0x35 := by
    simpa [isArrayLoad, isBetween, UInt8.le_iff_toNat_le] using load
  have known : ∀ offset < 8, (elementType? ⟨UInt8.ofNat (0x2e + offset)⟩).isSome = true := by decide
  have same : op = ⟨UInt8.ofNat (0x2e + (op.byte.toNat - 0x2e))⟩ := by
    rw [Nat.add_sub_cancel' bounds.1, UInt8.ofNat_toNat]
  rw [same]
  exact known _ (by omega)

namespace Emission

open Emit

/-! Single instructions -/

theorem pushesConstant_of_constant {op : Opcode} {immediate : Option Int32}
    {value : String × StackType} (constant : Instr.immediateValue? op immediate = some value) :
    op = .aconstNull ∨ pushesConstant op = true := by
  unfold Instr.immediateValue? at constant
  split at constant
  all_goals first | exact .inl rfl | exact .inr rfl | simp at constant

theorem basic_of_constant (context : MethodContext) (hasRegions : Bool) {op : Opcode}
    {immediate : Option Int32} {value : String × StackType}
    (constant : Instr.immediateValue? op immediate = some value) :
    ∃ items, basic context hasRegions op immediate = .ok items := by
  rcases pushesConstant_of_constant constant with rfl | pushes
  · exact ⟨_, rfl⟩
  · unfold basic
    simp only [pushes, constant]
    split
    · exact ⟨_, rfl⟩
    · split
      · exact ⟨_, rfl⟩
      · exact ⟨_, rfl⟩

theorem basic_of_operator (context : MethodContext) (hasRegions : Bool) {op : Opcode}
    (immediate : Option Int32) (operator : op.isOperator = true) :
    ∃ items, basic context hasRegions op immediate = .ok items := by
  by_cases binary : op.binary?.isSome = true
  · unfold Opcode.binary? at binary
    split at binary
    all_goals first | exact ⟨_, rfl⟩ | simp at binary
  by_cases unary : op.unary?.isSome = true
  · unfold Opcode.unary? at unary
    split at unary
    all_goals first | exact ⟨_, rfl⟩ | simp at unary
  by_cases load : op.isArrayLoad = true
  · have known := Opcode.isSome_elementType? load
    unfold Opcode.elementType? at known
    split at known
    all_goals first | exact ⟨_, rfl⟩ | simp at known
  simp only [Opcode.isOperator, BinaryNode.ofOpcode?, UnaryNode.ofOpcode?, binary, unary, load]
    at operator
  by_cases length : op = .arraylength
  · subst length
    exact ⟨_, rfl⟩
  by_cases copies : op = .dup
  · subst copies
    exact ⟨_, rfl⟩
  simp [length, copies] at operator

theorem map_basic (context other : MethodContext) (hasRegions : Bool) (op : Opcode)
    (immediate : Option Int32) :
    (basic context hasRegions op immediate).map (fun _ => ()) =
      (basic other hasRegions op immediate).map (fun _ => ()) := by
  unfold basic
  repeat' split
  all_goals rfl

theorem localAccess_of_value {list : Listing} {op : Opcode} {slot : Slot}
    {value : String × StackType} (load : list.localValue? op slot = some value)
    (delta : Option Int32) : ∃ items, localAccess list op slot delta = .ok items := by
  unfold Listing.localValue? at load
  split at load
  next loads =>
    obtain ⟨type, known, _⟩ := Option.map_eq_some_iff.mp load
    have notRet : op ≠ .ret := by rintro rfl; exact absurd loads (by decide)
    have notIinc : op ≠ .iinc := by rintro rfl; exact absurd loads (by decide)
    exact ⟨_, by simp [localAccess, notRet, notIinc, known, loads]; rfl⟩
  next => simp at load

theorem constantLoad_of_value {constant : Constant} {poolOffset : Option Nat}
    {value : String × StackType} (known : Instr.constantValue? constant poolOffset = some value) :
    ∃ items, constantLoad constant poolOffset = .ok items := by
  cases constant with
  | methodHandle handle => simp [Instr.constantValue?] at known
  | _ => exact ⟨_, by simp [constantLoad, known]; rfl⟩

theorem fieldAccess_of_read {context : MethodContext} (isInstance : context.header.isStatic = false)
    {access : FieldAccess} (read : access.op = .getfield) (direct : access.useThis = true)
    {type : FieldType} (typed : FieldType.ofDescriptor? access.descriptor = some type) :
    ∃ items, fieldAccess context access = .ok items := by
  have parsed : access.type = .ok type := by simp [FieldAccess.type, FieldType.parse, typed]
  have object : context.currentObject "getfield" = .ok "__this" := by
    simp [MethodContext.currentObject, isInstance]
  simp only [fieldAccess, parsed, read, readField, direct, object]
  exact ⟨_, rfl⟩

theorem fieldAccess_refused {context : MethodContext} (isStatic : context.header.isStatic = true)
    {access : FieldAccess} (read : access.op = .getfield) (direct : access.useThis = true) :
    ∃ error, fieldAccess context access = .error error := by
  have none : context.currentObject "getfield" =
      .error (.unsupported (.currentObject "getfield" context.header.displayName)) := by
    simp [MethodContext.currentObject, isStatic]
  cases parsed : access.type with
  | error error => exact ⟨error, by simp only [fieldAccess, parsed]; rfl⟩
  | ok type => exact ⟨_, by simp only [fieldAccess, parsed, read, readField, direct, none]; rfl⟩

theorem effects_basic (context : MethodContext) {op : Opcode} {immediate : Option Int32}
    (accepted : ∀ hasRegions, ∃ items, basic context hasRegions op immediate = .ok items) :
    effects (instr context (.basic op immediate)) = pure () := by
  have idle (state : BodyState) :
      effects (liftM (basic context state.scope.hasRegions op immediate) : Emit (List C.Item)) =
        pure () := by
    obtain ⟨items, made⟩ := accepted state.scope.hasRegions
    exact effects_lift_of_ok made
  have unfolded : instr context (.basic op immediate) =
      (do liftM (basic context (← get).scope.hasRegions op immediate)) := rfl
  rw [unfolded, effects_bind]
  simp only [idle]
  rfl

theorem effects_part (context : MethodContext) {instruction : Instr}
    (part : context.list.isPart instruction = true) (checked : instruction.Checked)
    (rendered : instruction.operands ≠ [] → ∃ value, context.list.render instruction = .ok value)
    (allowed : context.header.isStatic = true → instruction.readsReceiver = false) :
    effects (instr context instruction) = pure () := by
  by_cases leaf : instruction.operands = []
  · simp only [Listing.isPart, leaf, List.isEmpty_nil, Bool.not_true, Bool.false_or,
      Bool.or_eq_true, Option.isSome_iff_exists] at part
    rcases part with ⟨value, known⟩ | operator
    · obtain ⟨given, known, _⟩ := Option.map_eq_some_iff.mp known
      cases instruction with
      | basic op immediate =>
          exact effects_basic context fun hasRegions => basic_of_constant context hasRegions known
      | localVar op slot delta =>
          obtain ⟨items, made⟩ := localAccess_of_value known delta
          exact effects_lift_of_ok made
      | namedLocal op slot name tag delta =>
          obtain ⟨items, made⟩ := localAccess_of_value known delta
          have passed : LocalName.check op slot name tag = .ok () := checked
          simp only [instr, passed]
          exact effects_lift_of_ok made
      | field access =>
          simp only at known
          split at known
          next direct =>
            obtain ⟨type, found, _⟩ := Option.map_eq_some_iff.mp known
            have isInstance : context.header.isStatic = false := by
              simpa [Instr.readsReceiver, direct] using allowed
            obtain ⟨items, made⟩ := fieldAccess_of_read isInstance direct.1 direct.2 found
            exact effects_lift_of_ok made
          next => simp at known
      | constant value poolOffset =>
          obtain ⟨items, made⟩ := constantLoad_of_value known
          exact effects_lift_of_ok made
      | _ => simp at known
    · cases instruction with
      | basic op immediate =>
          exact effects_basic context fun hasRegions =>
            basic_of_operator context hasRegions immediate operator
      | _ => simp [Instr.isOperator] at operator
  · obtain ⟨value, made⟩ := rendered leaf
    have expressed : ∃ items, expression context.list instruction = .ok items :=
      ⟨_, by rw [expression, made]; rfl⟩
    obtain ⟨items, made⟩ := expressed
    cases instruction with
    | arith | arrayLoad | arrayLength | dup => exact effects_lift_of_ok made
    | _ => exact absurd rfl leaf

theorem refuses_read {context : MethodContext} (isStatic : context.header.isStatic = true)
    {instruction : Instr} (reads : instruction.readsReceiver = true) :
    Refuses (instr context instruction) := by
  cases instruction with
  | field access =>
      simp only [Instr.readsReceiver, Bool.and_eq_true, decide_eq_true_eq] at reads
      obtain ⟨error, failed⟩ := fieldAccess_refused isStatic reads.1 reads.2
      simp only [instr, failed]
      exact refuses_lift error
  | _ => simp [Instr.readsReceiver] at reads

theorem localAccess_of_names {list next : Listing} (same : next.names = list.names) :
    localAccess next = localAccess list := by
  funext op slot delta
  simp only [localAccess, Listing.localName, Listing.boundName?, same]

/-- Of the listing an elementary instruction reads only the names, and which objects a return
releases matters to its code alone. -/
theorem effects_congr (context : MethodContext) {list : Listing}
    (same : list.names = context.list.names) (objectLocals : List String) {instruction : Instr}
    (leaf : instruction.operands = []) :
    effects (instr { context with list, objectLocals } instruction) =
      effects (instr context instruction) := by
  cases instruction with
  | basic op immediate =>
      simp only [instr, effects_bind]
      congr 1
      funext state
      exact effects_lift_congr (map_basic ..)
  | localVar op slot delta => simp only [instr, localAccess_of_names same]
  | namedLocal op slot name tag delta => simp only [instr, localAccess_of_names same]
  | arith | arrayLoad | arrayLength | dup => simp [Instr.operands] at leaf
  | _ => rfl

/-! Bodies -/

theorem effects_instrs (context : MethodContext) (annotate : Bool) (instructions : List Instr) :
    effects (instrs context annotate instructions) =
      forM instructions fun instruction => effects (instr context instruction) := by
  induction instructions with
  | nil => rfl
  | cons instruction rest ih =>
      rw [List.forM_cons, ← ih]
      simp [instrs, effects]

def closed : Emit Unit := do
  match (← get).openRegions with
  | [] => pure ()
  | innermost :: _ => throw (.unbalanced (.stillOpen innermost))

theorem effects_body (context : MethodContext) (annotate : Bool) :
    effects (body context annotate) =
      (forM context.list.instrs (fun instruction => effects (instr context instruction)) >>=
        fun _ => closed) := by
  rw [← effects_instrs context annotate, body, effects_bind]
  have dropped : (effects (instrs context annotate context.list.instrs) >>= fun _ => closed) =
      instrs context annotate context.list.instrs >>= fun _ => closed := by
    simp [effects]
  rw [dropped]
  congr 1
  funext items
  rw [effects_bind, closed]
  congr 1
  funext state
  cases state.openRegions <;> rfl

theorem effects_body_fold (context : MethodContext) (elementary : context.list.Elementary)
    (checked : context.list.AllNodes Instr.Checked)
    (allowed : context.header.isStatic = true →
      ∀ instruction ∈ context.list.instrs, instruction.readsReceiver = false)
    (objectLocals : List String) (annotate : Bool) :
    effects (body { context with list := context.list.fold.1, objectLocals } annotate) =
      effects (body context annotate) := by
  have names := context.list.reduces_fold.names
  have sound := elementary.sound.foldRun context.list.fold_run
  let folded : MethodContext := { context with list := context.list.fold.1, objectLocals }
  -- On both sides the parts of expressions have no effects, and what remains are the same
  -- instructions in the same order.
  have foldedParts : forM folded.list.unfoldable (fun given => effects (instr folded given)) =
      forM folded.list.instrs fun given => effects (instr folded given) := by
    refine forM_filter fun given member part => effects_part folded (by simpa using part) ?_ ?_ ?_
    · by_cases leaf : given.operands = []
      · exact checked.mem_instrs ((elementary.mem_instrs_iff given).mpr (.inr ⟨member, leaf⟩))
      · cases given with
        | namedLocal => exact absurd rfl leaf
        | _ => trivial
    · intro composite
      obtain ⟨id, _, found⟩ := List.mem_filterMap.mp member
      obtain ⟨_, value, _, _, _, rendered⟩ := sound.render found composite
      exact ⟨value, rendered⟩
    · intro isStatic
      by_cases leaf : given.operands = []
      · exact allowed isStatic given ((elementary.mem_instrs_iff given).mpr (.inr ⟨member, leaf⟩))
      · cases given with
        | field => exact absurd rfl leaf
        | _ => rfl
  have plainParts : forM context.list.unfoldable (fun given => effects (instr context given)) =
      forM context.list.instrs fun given => effects (instr context given) := by
    refine forM_filter fun given member part => effects_part context (by simpa using part)
      (checked.mem_instrs member) ?_ fun isStatic => allowed isStatic given member
    exact fun composite => absurd (elementary.operands_of_mem member) composite
  have others : forM context.list.unfoldable (fun given => effects (instr folded given)) =
      forM context.list.unfoldable fun given => effects (instr context given) := by
    refine forM_congr fun given member => ?_
    exact effects_congr context names objectLocals
      (elementary.operands_of_mem (List.mem_filter.mp member).1)
  rw [effects_body, effects_body, ← plainParts, ← others, ← elementary.unfoldable_fold, ← foldedParts]

theorem refuses_body {context : MethodContext} (isStatic : context.header.isStatic = true)
    {instruction : Instr} (member : instruction ∈ context.list.instrs)
    (reads : instruction.readsReceiver = true) (annotate : Bool) :
    Refuses (body context annotate) := by
  rw [← refuses_effects, effects_body]
  refine Refuses.bind (Refuses.forM ?_ member) _
  rw [refuses_effects]
  exact refuses_read isStatic reads

end Emission

/-! Methods -/

theorem Listing.Elementary.markLabels_fold {list : Listing} (elementary : list.Elementary)
    (scope : MethodScope) : scope.markLabels list.fold.1 = scope.markLabels list := by
  simp only [MethodScope.markLabels, MethodScope.targets, elementary.labels_fold,
    elementary.jumpTargets_fold]

theorem Result.map_mapError {α β : Type} (result : Except Error α) (change : α → β)
    (wrap : Error → Error) :
    (result.mapError wrap).map change = (result.map change).mapError wrap := by
  cases result <;> rfl

def LoweredMethod.outcome (result : Except Error LoweredMethod × UnitState) :
    Except Error NameSet × UnitState :=
  (result.1.map (·.virtualCalls), result.2)

namespace MethodHeader

theorem outcome_lowerTyped_eq (header : MethodHeader) (type : MethodType) (list : Listing)
    (index : ClassIndex) (options : Options) (unit : UnitState) :
    LoweredMethod.outcome (header.lowerTyped type list index options unit) =
      match unit.scope.markLabels (list.under options) with
      | (.error error, scope) => (.error error, { unit with scope })
      | (.ok _, scope) =>
        let result := header.lowerBody (list.under options)
          (LocalTable.ofType (list.under options) header.isStatic type) index options.annotate
          { unit with scope }
        (result.1.map Prod.snd, result.2) := by
  rw [lowerTyped_eq]
  rcases unit.scope.markLabels (list.under options) with ⟨_ | _, scope⟩
  · rfl
  · dsimp only
    generalize header.lowerBody (list.under options) _ index options.annotate _ = lowered
    rcases lowered with ⟨_ | _, after⟩ <;> rfl

def Accepts (header : MethodHeader) (list : Listing) (index : ClassIndex) (options : Options)
    (unit : UnitState) : Prop :=
  ∃ lowered, (header.lower list index options unit).1 = .ok lowered

theorem accepts_iff_outcome (header : MethodHeader) (list : Listing) (index : ClassIndex)
    (options : Options) (unit : UnitState) :
    header.Accepts list index options unit ↔
      ∃ calls, (LoweredMethod.outcome (header.lower list index options unit)).1 = .ok calls := by
  simp only [Accepts, LoweredMethod.outcome, map_eq_ok_iff]
  constructor
  · rintro ⟨lowered, success⟩
    exact ⟨_, lowered, success, rfl⟩
  · rintro ⟨_, lowered, success, _⟩
    exact ⟨lowered, success⟩

variable {list : Listing} {header : MethodHeader}

section Allowed

variable (elementary : list.Elementary) (checked : list.AllNodes Instr.Checked)
  (allowed : header.isStatic = true →
    ∀ instruction ∈ list.instrs, instruction.readsReceiver = false)
include elementary checked allowed

theorem lowerBody_fold (locals others : List LocalVar) (index : ClassIndex) (annotate : Bool)
    (unit : UnitState) :
    (header.lowerBody list.fold.1 locals index annotate unit).1.map Prod.snd =
        (header.lowerBody list others index annotate unit).1.map Prod.snd ∧
      (header.lowerBody list.fold.1 locals index annotate unit).2 =
        (header.lowerBody list others index annotate unit).2 := by
  have same : Emit.effects (Emission.body (header.context list.fold.1 locals index) annotate) =
      Emit.effects (Emission.body (header.context list others index) annotate) := by
    have kept := Emission.effects_body_fold (header.context list others index) elementary checked
      allowed (LocalTable.objectNames locals) annotate
    simpa only [context, elementary.labels_fold] using kept
  obtain ⟨results, states⟩ := Emit.run_of_effects same { scope := unit.scope }
  cases folded : (Emission.body (header.context list.fold.1 locals index) annotate).run.run
    { scope := unit.scope } with
  | mk result state =>
      cases plain : (Emission.body (header.context list others index) annotate).run.run
        { scope := unit.scope } with
      | mk other after =>
          rw [folded, plain] at results states
          rw [lowerBody_eq _ _ _ _ _ _ folded, lowerBody_eq _ _ _ _ _ _ plain]
          obtain rfl : state = after := states
          refine ⟨?_, rfl⟩
          cases result <;> cases other <;> cases results <;> rfl

theorem outcome_lower_fold (index : ClassIndex) (options : Options) (unit : UnitState) :
    LoweredMethod.outcome (header.lower list index { options with reduce := true } unit) =
      LoweredMethod.outcome (header.lower list index { options with reduce := false } unit) := by
  have typed (type : MethodType) :
      LoweredMethod.outcome
          (header.lowerTyped type list index { options with reduce := true } unit) =
        LoweredMethod.outcome
          (header.lowerTyped type list index { options with reduce := false } unit) := by
    have folded : list.under { options with reduce := true } = list.fold.1 := rfl
    have plain : list.under { options with reduce := false } = list := rfl
    rw [outcome_lowerTyped_eq, outcome_lowerTyped_eq, folded, plain, elementary.markLabels_fold]
    split
    next => rfl
    next => exact Prod.ext_iff.mpr (lowerBody_fold elementary checked allowed _ _ index _ _)
  unfold lower
  split
  next => rfl
  next type parsed =>
    have same := typed type
    simp only [LoweredMethod.outcome, Prod.mk.injEq] at same ⊢
    simp only [map_mapError, same, and_self]

theorem accepts_fold_iff (index : ClassIndex) (options : Options) (unit : UnitState) :
    header.Accepts list index { options with reduce := true } unit ↔
      header.Accepts list index { options with reduce := false } unit := by
  rw [accepts_iff_outcome, accepts_iff_outcome, outcome_lower_fold elementary checked allowed]

end Allowed

theorem not_readsReceiver_of_accepts {index : ClassIndex} {options : Options} {unit : UnitState}
    (accepts : header.Accepts list index options unit) (isStatic : header.isStatic = true)
    {instruction : Instr} (member : instruction ∈ (list.under options).instrs) :
    instruction.readsReceiver = false := by
  by_contra reads
  obtain ⟨lowered, success⟩ := accepts
  obtain ⟨type, scope, lowers⟩ := lower_eq_ok (Prod.ext success rfl)
  obtain ⟨state, ran, _⟩ := lowerBody_eq_ok lowers.body
  have refuses : Emit.Refuses (Emission.body
      (header.context (list.under options) lowered.function.locals index) options.annotate) :=
    Emission.refuses_body isStatic member (Bool.not_eq_false _ ▸ reads) options.annotate
  exact refuses _ _ (congrArg Prod.fst ran)

theorem accepts_fold_of_plain (elementary : list.Elementary)
    (checked : list.AllNodes Instr.Checked) {index : ClassIndex} {options : Options}
    {unit : UnitState} (plain : header.Accepts list index { options with reduce := false } unit) :
    header.Accepts list index { options with reduce := true } unit := by
  have allowed (isStatic : header.isStatic = true) (instruction : Instr)
      (member : instruction ∈ list.instrs) : instruction.readsReceiver = false :=
    not_readsReceiver_of_accepts plain isStatic member
  exact (accepts_fold_iff elementary checked allowed index options unit).mpr plain

end MethodHeader

theorem Listing.Elementary.readsReceiver_iff {list : Listing} (elementary : list.Elementary) :
    (∃ instruction ∈ list.absorbed, instruction.readsReceiver = true) ↔
      ∃ access, .field access ∈ list.absorbed := by
  constructor
  · rintro ⟨instruction, member, reads⟩
    cases instruction with
    | field access => exact ⟨access, member⟩
    | _ => simp [Instr.readsReceiver] at reads
  · rintro ⟨access, member⟩
    refine ⟨_, member, ?_⟩
    rcases elementary.absorbed_part member with ⟨value, known⟩ | operator
    · obtain ⟨given, known, _⟩ := Option.map_eq_some_iff.mp known
      simp only at known
      split at known
      next direct => simp [Instr.readsReceiver, direct]
      next => simp at known
    · simp [Instr.isOperator] at operator

/-- What is accepted without folding is accepted with it. The converse fails for one kind of method
only: a static one whose reads of fields of the current object have all been absorbed by expressions,
so that nothing is left to refuse. -/
theorem reduce_keeps_acceptance_iff {method : MethodDecl} {start built : UnitState} {list : Listing}
    (assembled : method.assemble start = (.ok list, built)) (header : MethodHeader)
    (index : ClassIndex) (options : Options) (unit : UnitState) :
    (header.Accepts list index { options with reduce := false } unit →
      header.Accepts list index { options with reduce := true } unit) ∧
    ((header.Accepts list index { options with reduce := true } unit ↔
        header.Accepts list index { options with reduce := false } unit) ↔
      ¬(header.Accepts list index { options with reduce := true } unit ∧
        header.isStatic = true ∧ ∃ access, .field access ∈ list.absorbed)) := by
  have elementary := MethodDecl.elementary_assemble assembled
  have checked := MethodDecl.checked_assemble assembled
  rw [← elementary.readsReceiver_iff]
  refine ⟨MethodHeader.accepts_fold_of_plain elementary checked, ?_, ?_⟩
  · rintro kept ⟨reduced, isStatic, instruction, absorbed, reads⟩
    have none := MethodHeader.not_readsReceiver_of_accepts (kept.mp reduced) isStatic
      (elementary.absorbed_subset absorbed)
    simp [reads] at none
  · intro unharmed
    refine ⟨fun reduced => ?_, MethodHeader.accepts_fold_of_plain elementary checked⟩
    refine (MethodHeader.accepts_fold_iff elementary checked ?_ index options unit).mp reduced
    intro isStatic instruction member
    rcases (elementary.mem_instrs_iff instruction).mp member with absorbed | ⟨kept, _⟩
    · by_contra reads
      exact unharmed ⟨reduced, isStatic, instruction, absorbed, Bool.not_eq_false _ ▸ reads⟩
    · exact MethodHeader.not_readsReceiver_of_accepts reduced isStatic kept

namespace Sample

def staticRead : MethodDecl :=
  { name := "run", descriptor := "()I", isStatic := true, maxStack := 2, maxLocals := 0
    code :=
      [.field "getfield" "t/Main" "count" "I" true, .simple "iconst_1" none, .simple "iadd" none,
       .simple "ireturn" none]
    tryCatch := [] }

def countRead : FieldAccess :=
  { op := .getfield, owner := "t/Main", name := "count", descriptor := "I", useThis := true }

def staticReadListing : Listing :=
  { nodes :=
      #[.field countRead, .basic .iconst1 none, .basic ⟨0x60⟩ none, .basic .ireturn none]
    order := [0, 1, 2, 3] }

end Sample

theorem reduce_accepts_static_read :
    Sample.staticRead.assemble .empty = (.ok Sample.staticReadListing, .empty) ∧
      (Sample.staticRead.header "t/Main").Accepts Sample.staticReadListing .empty
        { reduce := true } .empty ∧
      ¬(Sample.staticRead.header "t/Main").Accepts Sample.staticReadListing .empty
        { reduce := false } .empty := by
  have assembled : Sample.staticRead.assemble .empty = (.ok Sample.staticReadListing, .empty) := by
    decide
  have reduced : (Sample.staticRead.header "t/Main").Accepts Sample.staticReadListing .empty
      { reduce := true } .empty := by
    have success : (((Sample.staticRead.header "t/Main").lower Sample.staticReadListing .empty
        { reduce := true } .empty).1.map fun _ => ()) = .ok () := by
      decide +kernel
    obtain ⟨lowered, success, _⟩ := (map_eq_ok_iff ..).mp success
    exact ⟨lowered, success⟩
  have absorbed : .field Sample.countRead ∈ Sample.staticReadListing.absorbed := by decide +kernel
  have kept := (reduce_keeps_acceptance_iff assembled (Sample.staticRead.header "t/Main") .empty
    {} .empty).2
  refine ⟨assembled, reduced, fun plain => ?_⟩
  exact kept.mp ⟨fun _ => plain, fun _ => reduced⟩ ⟨reduced, rfl, _, absorbed⟩

end BytecodeToC
