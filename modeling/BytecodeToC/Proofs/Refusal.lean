import BytecodeToC.LoweredUnit
import BytecodeToC.Proofs.Arena

/-!
Which errors a lowering can end with. Assembly and lowering refuse input that has no lowering and
try regions that do not nest; no other kind of error arises, because every expression node of a
folded listing has a value.
-/

namespace BytecodeToC

open Result

namespace Error

@[simp] def IsUnsupported : Error → Prop
  | unsupported _ => True
  | _ => False

@[simp] def IsRefusal : Error → Prop
  | unsupported _ | unbalanced _ => True
  | _ => False

theorem IsUnsupported.isRefusal {error : Error} (kind : error.IsUnsupported) : error.IsRefusal := by
  cases error with
  | unsupported cause => trivial
  | _ => exact absurd kind (by simp)

theorem IsRefusal.root {error : Error} (kind : error.IsRefusal) : error.root.IsRefusal := by
  cases error with
  | inMethod method cause => exact absurd kind (by simp)
  | _ => exact kind

end Error

/-! Assembly -/

@[simp] theorem fails_opcodeNamed (name : String) : Fails Error.IsUnsupported (opcodeNamed name) := by
  unfold opcodeNamed
  split <;> simp

@[simp] theorem fails_fieldType (text : String) :
    Fails Error.IsUnsupported (FieldType.parse text) := by
  unfold FieldType.parse
  split <;> simp

@[simp] theorem fails_methodType (text : String) :
    Fails Error.IsUnsupported (MethodType.parse text) := by
  unfold MethodType.parse
  split <;> simp

@[simp] theorem fails_localCheck (op : Opcode) (slot : Slot) (name : String) (tag : Char) :
    Fails Error.IsUnsupported (LocalName.check op slot name tag) := by
  unfold LocalName.check
  split
  · simp
  · split <;> simp

namespace Record

@[simp] theorem fails_localAccess (op : String) (slot : Option Slot) :
    Fails Error.IsUnsupported (localAccess op slot) := by
  unfold localAccess
  split <;> simp

@[simp] theorem fails_localInstr (op : String) (slot : Option Slot) (name : Option String)
    (tag : Option Char) : Fails Error.IsUnsupported (localInstr op slot name tag) := by
  unfold localInstr
  refine Fails.bind (fails_localAccess op slot) ?_
  intro ⟨code, slot⟩
  dsimp only
  split
  · simp
  · split
    · simp
    · split <;> simp [namedInstr]

@[simp] theorem fails_dispatch (op name descriptor : String) :
    Fails Error.IsUnsupported (dispatch op name descriptor) := by
  unfold dispatch
  split <;> simp

@[simp] theorem fails_receiver (owner name : String) (text : Option String) (selfCall : Bool) :
    Fails Error.IsUnsupported (receiver owner name text selfCall) := by
  unfold receiver
  split <;> simp

@[simp] theorem fails_switchKeys (keys : List Int32) (low : Option Int32) (targets : List Label) :
    Fails Error.IsUnsupported (switchKeys keys low targets) := by
  unfold switchKeys
  split
  · simp
  · split
    · split <;> simp
    · split <;> simp

@[simp] theorem fails_newArrayInstr (element : String) :
    Fails Error.IsUnsupported (newArrayInstr element) := by
  simp only [newArrayInstr]
  split <;> simp

theorem fails_instr (record : Record) : Fails Error.IsUnsupported record.instr := by
  cases record with
  | simple op operand =>
      simp only [instr]
      split
      · simp
      · refine Fails.bind (fails_opcodeNamed op) ?_
        intro code
        split <;> simp
  | localVar op slot name tag => exact fails_localInstr op slot name tag
  | increment slot delta name => cases name <;> simp [instr, namedInstr]
  | field op owner name descriptor useThis =>
      refine Fails.bind (fails_opcodeNamed op) ?_
      intro code
      split
      · refine Fails.bind (fails_fieldType descriptor) ?_
        simp
      · simp
  | invoke op owner name descriptor literalArgs text selfCall discardResult =>
      refine Fails.bind (fails_dispatch op name descriptor) ?_
      intro dispatch
      refine Fails.bind (fails_receiver owner name text selfCall) ?_
      simp
  | jump op target condition =>
      refine Fails.bind (fails_opcodeNamed op) ?_
      simp
  | label id => simp [instr]
  | switch default keys low targets =>
      refine Fails.bind (fails_switchKeys keys low targets) ?_
      simp
  | type op typeName =>
      refine Fails.bind (fails_opcodeNamed op) ?_
      intro code
      split
      · simp
      · split <;> simp
  | newArray element => exact fails_newArrayInstr element
  | multiArray descriptor dimensions => simp [instr]
  | constant value => simp [instr]

end Record

namespace Listing

theorem fails_bindNameOf (list : Listing) (instr : Instr) :
    Fails Error.IsUnsupported (list.bindNameOf instr) := by
  unfold bindNameOf
  split
  · split
    · unfold bindName
      split <;> split <;> simp
    · simp
  · simp

theorem fails_appendRecords (receiverStable : Bool) (records : List Record) (list : Listing)
    (pool : ConstantPool) :
    Fails Error.IsUnsupported (appendRecords receiverStable records list pool).1 := by
  induction records generalizing list pool with
  | nil => simp [appendRecords]
  | cons record rest ih =>
      simp only [appendRecords]
      split
      next error failed => simpa [failed] using record.fails_instr
      next instr made =>
        split
        next error failed =>
          have kind := list.fails_bindNameOf (pool.place instr).1
          simpa [failed] using kind
        next named bound => exact ih _ _

end Listing

theorem MethodDecl.fails_assemble (method : MethodDecl) (unit : UnitState) :
    Fails Error.IsUnsupported (method.assemble unit).1 := by
  unfold assemble
  exact Listing.fails_appendRecords _ _ _ _

/-! Lowering of single instructions -/

namespace Emit

def Fails {α : Type} (kind : Error → Prop) (action : Emit α) : Prop :=
  ∀ state, Result.Fails kind (action.run.run state).1

variable {α β : Type} {kind : Error → Prop}

@[simp] theorem fails_pure (value : α) : Fails kind (pure value) := fun _ => fails_ok value

@[simp] theorem fails_get : Fails kind (get : Emit BodyState) := fun state => fails_ok state

@[simp] theorem fails_set (state : BodyState) : Fails kind (set state : Emit PUnit) :=
  fun _ => fails_ok _

@[simp] theorem fails_modify (change : BodyState → BodyState) :
    Fails kind (modify change : Emit PUnit) :=
  fun _ => fails_ok _

@[simp] theorem fails_throw (error : Error) : Fails kind (throw error : Emit α) ↔ kind error :=
  ⟨fun fails => (fails_error error).mp (fails { scope := {} }),
    fun given _ => (fails_error error).mpr given⟩

@[simp] theorem fails_lift (result : Except Error α) :
    Fails kind (liftM result : Emit α) ↔ Result.Fails kind result :=
  ⟨fun fails => fails { scope := {} }, fun fails _ => fails⟩

theorem run_bind (action : Emit α) (next : α → Emit β) (state : BodyState) :
    (action >>= next).run.run state =
      match action.run.run state with
      | (.ok value, after) => (next value).run.run after
      | (.error error, after) => (.error error, after) := by
  simp only [ExceptT.run_bind, StateT.run_bind]
  rcases action.run.run state with ⟨_ | _, after⟩ <;> rfl

theorem Fails.bind {action : Emit α} {next : α → Emit β} (first : Fails kind action)
    (rest : ∀ value, Fails kind (next value)) : Fails kind (action >>= next) := by
  intro state
  have start := first state
  rw [run_bind]
  split
  next value after ran => exact rest value after
  next error after ran => simpa [ran] using start

theorem fails_list_mapM {action : α → Emit β} (each : ∀ value, Fails kind (action value))
    (values : List α) : Fails kind (values.mapM action) := by
  induction values with
  | nil => simp
  | cons value rest ih =>
      rw [List.mapM_cons]
      refine (each value).bind fun _ => ih.bind fun _ => fails_pure _

theorem fails_option_mapM {action : α → Emit β} (each : ∀ value, Fails kind (action value))
    (value : Option α) : Fails kind (value.mapM action) := by
  cases value with
  | none => simp
  | some value =>
      rw [Option.mapM_some, map_eq_pure_bind]
      exact (each value).bind fun _ => fails_pure _

end Emit

namespace Emission

theorem fails_localAccess (list : Listing) (op : Opcode) (slot : Slot) (delta : Option Int32) :
    Fails Error.IsUnsupported (localAccess list op slot delta) := by
  unfold localAccess
  split
  · simp
  · split
    · simp
    · dsimp only
      split
      · split <;> simp
      · split
        · simp
        · split <;> simp

theorem fails_constantLoad (constant : Constant) (poolOffset : Option Nat) :
    Fails Error.IsUnsupported (constantLoad constant poolOffset) := by
  unfold constantLoad
  split
  · simp
  · split <;> simp

@[simp] theorem fails_currentObject (context : MethodContext) (use : String) :
    Fails Error.IsUnsupported (context.currentObject use) := by
  unfold MethodContext.currentObject
  split <;> simp

theorem fails_fieldAccess (context : MethodContext) (access : FieldAccess) :
    Fails Error.IsUnsupported (fieldAccess context access) := by
  refine Fails.bind (fails_fieldType access.descriptor) ?_
  intro type
  split
  · simp
  · simp
  · unfold readField
    dsimp only
    split <;> simp
  · unfold writeField
    dsimp only
    split <;> simp
  · simp

@[simp] theorem fails_newPrimitiveArray (code : Option Int32) :
    Fails Error.IsUnsupported (newPrimitiveArray code) := by
  unfold newPrimitiveArray
  split <;> simp

theorem fails_typeOperation (op : Opcode) (typeName : String) :
    Fails Error.IsUnsupported (typeOperation op typeName) := by
  unfold typeOperation
  split
  · split <;> simp
  · simp only [newReferenceArray]
    split <;> split <;> simp
  · simp
  · simp
  · simp

theorem fails_elementType (name : String) :
    Fails Error.IsUnsupported (TypeName.elementType name) := by
  unfold TypeName.elementType
  split
  · simp
  · split <;> simp
  · simp

theorem fails_multiArray (descriptor : String) (count : Nat) :
    Fails Error.IsUnsupported (multiArray descriptor count) := by
  simp only [multiArray]
  split
  · simp
  · split
    · simp
    · refine Fails.bind (fails_elementType descriptor) ?_
      simp

theorem fails_invoke (context : MethodContext) (call : Call) :
    Fails Error.IsUnsupported (invoke context call) := by
  refine Fails.bind (fails_methodType call.descriptor) ?_
  intro type
  split
  · simp
  · split
    · simp
    · refine Fails.bind ?_ (by simp)
      unfold receiver
      split <;> simp

theorem fails_basic (context : MethodContext) (hasRegions : Bool) (op : Opcode)
    (immediate : Option Int32) :
    Fails Error.IsUnsupported (basic context hasRegions op immediate) := by
  unfold basic
  repeat' split
  all_goals simp

theorem fails_closeRegions (label : Label) (ending : List Nat) (count : Nat) (opened : List Nat) :
    Fails Error.IsRefusal (closeRegions label ending count opened) := by
  induction count generalizing opened with
  | zero => simp [closeRegions]
  | succ count ih =>
      cases opened with
      | nil => simp [closeRegions]
      | cons innermost outer =>
          simp only [closeRegions]
          split
          · simpa using ih outer
          · simp

theorem fails_label (scope : MethodScope) (opened : List Nat) (id : Label) :
    Fails Error.IsRefusal (label scope opened id) := by
  refine Fails.bind (fails_closeRegions _ _ _ _) ?_
  simp

theorem fails_depthFrom (scope : MethodScope) (target : Label) (depth : Nat)
    (labels : List Label) : Fails Error.IsRefusal (scope.depthFrom target depth labels) := by
  induction labels generalizing depth with
  | nil => simp [MethodScope.depthFrom]
  | cons label rest ih =>
      simp only [MethodScope.depthFrom]
      split
      · simp
      · split
        · simp
        · exact ih _

theorem fails_catchDepth (scope : MethodScope) (target : Label) (labels : List Label) :
    Fails Error.IsRefusal (scope.catchDepth target labels).1 := by
  unfold MethodScope.catchDepth
  split
  · simp
  · have kind := fails_depthFrom scope target 0 labels
    split
    next => simp
    next error failed => simpa [failed] using kind

theorem fails_jumpTo (labels : List Label) (target : Label) :
    Emit.Fails Error.IsRefusal (jumpTo labels target) := by
  refine Emit.fails_get.bind ?_
  intro state
  split
  · refine (Emit.fails_set _).bind fun _ => ?_
    exact ((Emit.fails_lift _).mpr (fails_catchDepth _ _ _)).bind fun _ => Emit.fails_pure _
  · exact Emit.fails_pure _

theorem fails_branch (labels : List Label) (op : Opcode) (target : Label) (given : Option String) :
    Emit.Fails Error.IsRefusal (branch labels op target given) := by
  unfold branch
  split
  · simp
  · simp
  · exact (fails_jumpTo labels target).bind fun _ => Emit.fails_pure _
  · exact (fails_jumpTo labels target).bind fun _ => Emit.fails_pure _
  · split
    · simp
    · refine (fails_jumpTo labels target).bind fun jump => ?_
      split <;> simp

theorem fails_switch (labels : List Label) (default : Option Label) (keys : List Int32)
    (targets : List Label) : Emit.Fails Error.IsRefusal (switch labels default keys targets) := by
  unfold switch
  split
  · simp
  · refine (Emit.fails_list_mapM (fails_jumpTo labels) targets).bind fun jumps => ?_
    exact (Emit.fails_option_mapM (fails_jumpTo labels) default).bind fun _ => Emit.fails_pure _

theorem fails_lift_unsupported {α : Type} {result : Except Error α}
    (fails : Fails Error.IsUnsupported result) : Emit.Fails Error.IsRefusal (liftM result) :=
  (Emit.fails_lift result).mpr (fails.mono fun _ => Error.IsUnsupported.isRefusal)

theorem fails_instr (context : MethodContext) (instruction : Instr)
    (rendered : instruction.operands ≠ [] → ∃ value, context.list.render instruction = .ok value) :
    Emit.Fails Error.IsRefusal (instr context instruction) := by
  cases instruction with
  | basic op immediate =>
      refine Emit.fails_get.bind fun state => ?_
      exact fails_lift_unsupported (fails_basic context _ op immediate)
  | localVar op slot delta => exact fails_lift_unsupported (fails_localAccess _ op slot delta)
  | namedLocal op slot name tag delta =>
      refine (fails_lift_unsupported (fails_localCheck op slot name tag)).bind fun _ => ?_
      exact fails_lift_unsupported (fails_localAccess _ op slot delta)
  | field access => exact fails_lift_unsupported (fails_fieldAccess context access)
  | invoke call =>
      refine (fails_lift_unsupported (fails_invoke context call)).bind fun _ => ?_
      exact (Emit.fails_modify _).bind fun _ => Emit.fails_pure _
  | jump op target condition => exact fails_branch context.labels op target condition
  | label id =>
      refine Emit.fails_get.bind fun state => ?_
      refine ((Emit.fails_lift _).mpr (fails_label state.scope state.openRegions id)).bind fun _ => ?_
      exact (Emit.fails_set _).bind fun _ => Emit.fails_pure _
  | switch default keys targets => exact fails_switch context.labels default keys targets
  | tryRegion region => exact Emit.fails_pure []
  | type op typeName => exact fails_lift_unsupported (fails_typeOperation op typeName)
  | multiArray descriptor dimensions =>
      exact fails_lift_unsupported (fails_multiArray descriptor dimensions.toNat)
  | constant value poolOffset => exact fails_lift_unsupported (fails_constantLoad value poolOffset)
  | _ =>
      -- An expression node. Only its rendering could fail in another way.
      obtain ⟨value, known⟩ := rendered (by simp [Instr.operands])
      refine (Emit.fails_lift _).mpr ?_
      simp [expression, known, Except.map]

theorem fails_instrs (context : MethodContext) (annotate : Bool) (instructions : List Instr)
    (rendered : ∀ instruction ∈ instructions, instruction.operands ≠ [] →
      ∃ value, context.list.render instruction = .ok value) :
    Emit.Fails Error.IsRefusal (instrs context annotate instructions) := by
  induction instructions with
  | nil => exact Emit.fails_pure []
  | cons instruction rest ih =>
      refine (fails_instr context instruction (rendered instruction (by simp))).bind fun items => ?_
      refine (ih fun other member => rendered other (by simp [member])).bind fun others => ?_
      exact Emit.fails_pure _

theorem fails_body (context : MethodContext) (annotate : Bool) (sound : context.list.Sound) :
    Emit.Fails Error.IsRefusal (body context annotate) := by
  refine (fails_instrs context annotate _ ?_).bind fun items => ?_
  · intro instruction member composite
    obtain ⟨id, _, found⟩ := List.mem_filterMap.mp member
    obtain ⟨_, value, _, _, _, rendered⟩ := sound.render found composite
    exact ⟨value, rendered⟩
  · refine Emit.fails_get.bind fun state => ?_
    split <;> simp

end Emission

/-! Lowering of methods and programs -/

theorem MethodScope.fails_markTargets (defined targets : List Label) (scope : MethodScope) :
    Fails Error.IsUnsupported (markTargets defined targets scope).1 := by
  induction targets generalizing scope with
  | nil => simp [markTargets]
  | cons target rest ih =>
      simp only [markTargets]
      split
      · exact ih _
      · simp

theorem MethodScope.fails_markLabels (scope : MethodScope) (list : Listing) :
    Fails Error.IsUnsupported (scope.markLabels list).1 := by
  unfold markLabels
  split
  · simp
  · exact fails_markTargets _ _ _

namespace MethodHeader

theorem fails_lowerBody (header : MethodHeader) {list : Listing} (sound : list.Sound)
    (locals : List LocalVar) (index : ClassIndex) (annotate : Bool) (unit : UnitState) :
    Fails Error.IsRefusal (header.lowerBody list locals index annotate unit).1 := by
  let context : MethodContext :=
    { list, header, index, objectLocals := LocalTable.objectNames locals, labels := list.labels }
  have kind := Emission.fails_body context annotate sound { scope := unit.scope }
  exact (fails_map _ _).mpr kind

theorem fails_lowerTyped (header : MethodHeader) (type : MethodType) {list : Listing}
    (elementary : list.Elementary) (index : ClassIndex) (options : Options) (unit : UnitState) :
    Fails Error.IsRefusal (header.lowerTyped type list index options unit).1 := by
  have sound : (if options.reduce then list.fold else (list, 0)).1.Sound := by
    split
    · exact elementary.sound.foldRun list.fold_run
    · exact elementary.sound
  simp only [lowerTyped]
  generalize (if options.reduce then list.fold else (list, 0)) = folded at sound ⊢
  have marks := unit.scope.fails_markLabels folded.1
  split
  next error scope marked =>
    rw [marked] at marks
    simpa using (marks.mono fun _ => Error.IsUnsupported.isRefusal)
  next scope marked =>
    have kind := header.fails_lowerBody sound
      (LocalTable.ofType folded.1 header.isStatic type) index options.annotate { unit with scope }
    split
    next error after failed => simpa [failed] using kind
    next => simp

theorem fails_lower (header : MethodHeader) {list : Listing} (elementary : list.Elementary)
    (index : ClassIndex) (options : Options) (unit : UnitState) :
    Fails (fun error => error.root.IsRefusal) (header.lower list index options unit).1 := by
  have parses := fails_methodType header.descriptor
  unfold lower
  split
  next error failed =>
    rw [failed, fails_error] at parses
    exact (fails_error error).mpr parses.isRefusal.root
  next type parsed =>
    have kind := header.fails_lowerTyped type elementary index options unit
    refine (fails_mapError _ _).mpr (kind.mono ?_)
    intro error refusal
    rw [Error.root_within]
    exact refusal.root

end MethodHeader

theorem MethodDecl.fails_lower (method : MethodDecl) (owner : String) (index : ClassIndex)
    (options : Options) (unit : UnitState) :
    Fails (fun error => error.root.IsRefusal) (method.lower owner index options unit).1 := by
  have assembles := method.fails_assemble unit.beginMethod
  simp only [lower]
  split
  next error after failed =>
    rw [failed, fails_error] at assembles
    rw [fails_error, Error.root_within]
    exact assembles.isRefusal.root
  next list after assembled =>
    exact (method.header owner).fails_lower (elementary_assemble assembled) index options after

namespace Program

theorem fails_lowerMethods (index : ClassIndex) (options : Options)
    (methods : List (String × MethodDecl)) (unit : UnitState) :
    Fails (fun error => error.root.IsRefusal) (lowerMethods index options methods unit) ∧
      ∀ progress, lowerMethods index options methods unit = .ok progress →
        ∀ skipped ∈ progress.skipped, skipped.error.root.IsRefusal := by
  induction methods generalizing unit with
  | nil =>
      refine ⟨by simp [lowerMethods], ?_⟩
      intro progress lowered
      simp only [lowerMethods, Except.ok.injEq] at lowered
      subst lowered
      simp
  | cons entry rest ih =>
      obtain ⟨owner, method⟩ := entry
      have kind := method.fails_lower owner index options unit
      simp only [lowerMethods]
      split
      next first after lowered =>
        refine ⟨(fails_map _ _).mpr (ih after).1, ?_⟩
        intro progress whole
        obtain ⟨others, made, rfl⟩ := (map_eq_ok_iff ..).mp whole
        exact (ih after).2 others made
      next error after failed =>
        rw [failed, fails_error] at kind
        split
        · refine ⟨(fails_map _ _).mpr (ih after).1, ?_⟩
          intro progress whole skipped member
          obtain ⟨others, made, rfl⟩ := (map_eq_ok_iff ..).mp whole
          rcases List.mem_cons.mp member with rfl | later
          · exact kind
          · exact (ih after).2 others made skipped later
        · refine ⟨(fails_error error).mpr kind, ?_⟩
          intro progress whole
          cases whole

theorem fails_lower (program : Program) (options : Options) :
    Fails (fun error => error.root.IsRefusal) (program.lower options) ∧
      ∀ unit, program.lower options = .ok unit →
        ∀ skipped ∈ unit.skipped, skipped.error.root.IsRefusal := by
  obtain ⟨fails, skips⟩ :=
    fails_lowerMethods program.classIndex options program.methodsWithCode .empty
  refine ⟨(fails_map _ _).mpr fails, ?_⟩
  intro unit lowered
  obtain ⟨progress, made, rfl⟩ := (map_eq_ok_iff ..).mp lowered
  exact skips progress made

end Program

theorem Error.IsRefusal.not_malformed {error : Error} (kind : error.IsRefusal) (cause : Malformed) :
    error ≠ .malformed cause := by
  rintro rfl
  exact kind

/-- Through any folds references lead to earlier nodes, none is shared, and every expression node has
a value that rendering finds with as many steps as nodes precede it, or more. So no lowering fails,
and none leaves a method out, because of a malformed node. -/
theorem arena_sound_and_never_malformed :
    (∀ {method : MethodDecl} {unit after : UnitState} {list last : Listing} {count : Nat},
      method.assemble unit = (.ok list, after) → Listing.FoldRun count list last →
        last.Descending ∧ last.references.Nodup ∧
        ∀ (id : Nat) (instr : Instr), last.node? id = some instr → instr.operands ≠ [] →
          ∃ value, last.render instr = .ok value ∧
            ∀ fuel, id < fuel → last.renderWithin fuel instr = .ok value) ∧
    ∀ (program : Program) (options : Options),
      (∀ error, program.lower options = .error error → ∀ cause, error.root ≠ .malformed cause) ∧
      ∀ unit, program.lower options = .ok unit →
        ∀ skipped ∈ unit.skipped, ∀ cause, skipped.error.root ≠ .malformed cause := by
  constructor
  · intro method unit after list last count assembled run
    have sound := (MethodDecl.elementary_assemble assembled).sound.foldRun run
    refine ⟨sound.descending, sound.distinct, ?_⟩
    intro id instr found composite
    obtain ⟨_, value, _, _, _, rendered⟩ := sound.renderWithin found composite
    have bound := Listing.lt_size_of_node? found
    exact ⟨value, rendered _ (by omega), rendered⟩
  · intro program options
    obtain ⟨fails, skips⟩ := program.fails_lower options
    constructor
    · intro error failed
      exact (fails error failed).not_malformed
    · intro unit lowered skipped member
      exact (skips unit lowered skipped member).not_malformed

def Sample.program : Program :=
  { classes :=
      [{ name := "Pick", superName := none, fields := []
         methods := [{ method with code := [.simple "jsr" none] }, method] }] }

theorem arena_sound_and_never_malformed_sample :
    (Sample.method.assemble .empty = (.ok Sample.listing, .empty) ∧
      Listing.FoldRun 3 Sample.listing Sample.folded ∧ Sample.folded.Descending ∧
      Sample.folded.references.Nodup ∧
      ∃ value, Sample.folded.render (.arith ⟨0x6c⟩ 10 (some 2)) = .ok value) ∧
    ∃ unit skipped, Sample.program.lower { keepGoing := true } = .ok unit ∧
      skipped ∈ unit.skipped ∧ ∀ cause, skipped.error.root ≠ .malformed cause := by
  obtain ⟨arena, errors⟩ := arena_sound_and_never_malformed
  constructor
  · have assembled : Sample.method.assemble .empty = (.ok Sample.listing, .empty) := by decide
    obtain ⟨descending, distinct, rendered⟩ := arena assembled Sample.foldRun
    obtain ⟨value, found, _⟩ := rendered 11 _ (by rfl) (by decide)
    exact ⟨assembled, Sample.foldRun, descending, distinct, value, found⟩
  · have skips : (Sample.program.lower { keepGoing := true }).map (·.skipped) =
        .ok [{ method := "Pick.pick([II)I"
               error := .inMethod "Pick_pick___int_1ARRAY_int_R_int"
                 (.unsupported (.notLowered .jsr)) }] := by
      decide +kernel
    obtain ⟨unit, lowered, same⟩ := (map_eq_ok_iff ..).mp skips
    have member : _ ∈ unit.skipped := same ▸ List.mem_singleton_self _
    exact ⟨unit, _, lowered, member, (errors _ _).2 unit lowered _ member⟩

end BytecodeToC
