import BytecodeToC.Proofs.Refusal
import Mathlib.Data.List.Forall2

/-!
The marks that open and close try regions, as they stand in an emitted body: each with the label last
seen before it. Only labels emit marks, and only branches and switches emit jumps. Every instruction
but a label leaves the regions, the references to labels and the open regions as they are.
-/

namespace BytecodeToC

open Result

namespace C

inductive Mark where
  | opens (seq : Nat)
  | closes (seq : Nat)
deriving DecidableEq, Repr

def Mark.isOpening : Mark → Bool
  | .opens _ => true
  | .closes _ => false

def Stmt.mark? : Stmt → Option Mark
  | .beginTry _ _ seq => some (.opens seq)
  | .endTry seq => some (.closes seq)
  | _ => none

def Item.marks : Item → List Mark
  | .stmt single => single.mark?.toList
  | .block body => body.filterMap Stmt.mark?
  | _ => []

def Stmt.jump? : Stmt → Option Jump
  | .jump destination => some destination
  | .branch _ destination => some destination
  | _ => none

def Item.jumps : Item → List Jump
  | .stmt single => single.jump?.toList
  | .block body => body.filterMap Stmt.jump?
  | .switch cases default => cases.map Prod.snd ++ default.toList
  | .anchor _ => []

def marksFrom : Option Label → List Item → List (Option Label × Mark)
  | _, [] => []
  | _, .anchor id :: rest => marksFrom (some id) rest
  | place, item :: rest => item.marks.map (place, ·) ++ marksFrom place rest

/-- Reads marks with a stack of open regions. A region can be closed only if it is on top. -/
def balance? : List Nat → List Mark → Option (List Nat)
  | opened, [] => some opened
  | opened, .opens seq :: rest => balance? (seq :: opened) rest
  | innermost :: outer, .closes seq :: rest => if innermost = seq then balance? outer rest else none
  | [], .closes _ :: _ => none

def Item.isQuiet : Item → Bool
  | .anchor _ => false
  | item => item.marks.isEmpty

def Stmt.isStraight : Stmt → Bool
  | .beginTry .. | .endTry _ | .jump _ | .branch .. => false
  | _ => true

def Item.AllOf (good : Stmt → Prop) : Item → Prop
  | .stmt single => good single
  | .block body => ∀ single ∈ body, good single
  | _ => False

theorem Stmt.mark?_of_isStraight {single : Stmt} (straight : single.isStraight = true) :
    single.mark? = none := by
  cases single <;> first | rfl | simp [isStraight] at straight

theorem Stmt.jump?_of_isStraight {single : Stmt} (straight : single.isStraight = true) :
    single.jump? = none := by
  cases single <;> first | rfl | simp [isStraight] at straight

theorem Item.AllOf.mono {good fine : Stmt → Prop} {item : Item} (all : item.AllOf good)
    (weaker : ∀ single, good single → fine single) : item.AllOf fine := by
  cases item with
  | stmt single => exact weaker single all
  | block body => exact fun single member => weaker single (all single member)
  | switch | anchor => cases all

theorem Item.isQuiet_of_straight {item : Item} (straight : item.AllOf (·.isStraight = true)) :
    item.isQuiet = true := by
  cases item with
  | stmt single => simp [isQuiet, marks, Stmt.mark?_of_isStraight straight]
  | block body =>
      simpa [isQuiet, marks] using fun single member => Stmt.mark?_of_isStraight (straight single member)
  | switch | anchor => cases straight

theorem Item.jumps_of_straight {item : Item} (straight : item.AllOf (·.isStraight = true)) :
    item.jumps = [] := by
  cases item with
  | stmt single => simp [jumps, Stmt.jump?_of_isStraight straight]
  | block body =>
      simpa [jumps] using fun single member => Stmt.jump?_of_isStraight (straight single member)
  | switch | anchor => cases straight

theorem marksFrom_append_of_quiet {items : List Item} (quiet : items.all Item.isQuiet = true)
    (place : Option Label) (rest : List Item) :
    marksFrom place (items ++ rest) = marksFrom place rest := by
  induction items with
  | nil => rfl
  | cons item others ih =>
      simp only [List.all_cons, Bool.and_eq_true] at quiet
      rw [List.cons_append]
      cases item <;> simp_all [marksFrom, Item.isQuiet]

theorem balance?_append (opened : List Nat) (first second : List Mark) :
    balance? opened (first ++ second) = (balance? opened first).bind (balance? · second) := by
  fun_induction balance? opened first <;> simp_all [balance?]

end C

namespace Emission

open C

/-! Instructions other than labels, branches and switches -/

/-- The statements of instructions other than labels, branches and switches. Most begin with a word of
the runtime; the others begin with a local, an element of an array, or a function. -/
def Ordinary (context : MethodContext) : Stmt → Prop
  | .popInto type name => ∃ slot, context.list.localName slot type = name
  | .increment name _ => ∃ slot type, context.list.localName slot type = name
  | .assign target _ =>
    (∃ slot type, context.list.localName slot type = target) ∨ ∃ element, elementText element = target
  | .set setter => ∃ action ∈ ["set_field", "set_static"], ∃ owner name,
    FieldAccess.accessor action owner name = setter.function
  | .setPopped setter _ => ∃ owner name, FieldAccess.accessor "set_static" owner name = setter
  | .monitor function _ => function = "monitorEnter" ∨ function = "monitorExit"
  | .call application => ∃ call type, callTarget context.index call type = application.function
  | .saveTry _ | .beginTry .. | .endTry _ | .jump _ | .branch .. => False
  | _ => True

theorem Ordinary.isStraight {context : MethodContext} {single : Stmt}
    (ordinary : Ordinary context single) : single.isStraight = true := by
  cases single <;> first | rfl | cases ordinary

def Routine (context : MethodContext) (items : List Item) : Prop :=
  ∀ item ∈ items, item.AllOf (Ordinary context)

section

variable {context : MethodContext}

@[simp] theorem routine_nil : Routine context [] := by
  simp [Routine]

@[simp] theorem routine_cons_stmt (single : Stmt) (rest : List Item) :
    Routine context (.stmt single :: rest) ↔ Ordinary context single ∧ Routine context rest := by
  simp [Routine, Item.AllOf]

@[simp] theorem routine_cons_block (body : List Stmt) (rest : List Item) :
    Routine context (.block body :: rest) ↔
      (∀ single ∈ body, Ordinary context single) ∧ Routine context rest := by
  simp [Routine, Item.AllOf]

theorem routine_stmts {body : List Stmt} (ordinary : ∀ single ∈ body, Ordinary context single) :
    Routine context (body.map .stmt) := by
  intro item member
  obtain ⟨single, known, rfl⟩ := List.mem_map.mp member
  exact ordinary single known

theorem ordinary_leave (context : MethodContext) (hasRegions : Bool) :
    ∀ single ∈ leave context hasRegions, Ordinary context single := by
  intro single member
  simp only [leave, List.mem_append, List.mem_map] at member
  rcases member with first | ⟨name, _, rfl⟩
  · split at first
    · obtain rfl := List.mem_singleton.mp first
      exact trivial
    · simp at first
  · exact trivial

theorem routine_methodReturn (context : MethodContext) (hasRegions : Bool)
    (type : Option StackType) : Routine context (methodReturn context hasRegions type) := by
  have leaves := ordinary_leave context hasRegions
  cases type with
  | none =>
      refine routine_stmts fun single member => ?_
      rcases List.mem_append.mp member with left | last
      · exact leaves single left
      · obtain rfl := List.mem_singleton.mp last
        exact trivial
  | some type =>
      refine (routine_cons_block _ _).mpr ⟨fun single member => ?_, routine_nil⟩
      simp only [List.mem_append, List.mem_singleton] at member
      rcases member with (rfl | left) | rfl
      · exact trivial
      · exact leaves single left
      · exact trivial

theorem routine_newPrimitiveArray (context : MethodContext) (code : Option Int32) :
    Yields (Routine context) (newPrimitiveArray code) := by
  unfold newPrimitiveArray
  split <;> simp [Ordinary]

theorem routine_arrayStore (context : MethodContext) (element : ElementType) :
    Routine context (arrayStore element) := by
  unfold arrayStore
  split <;> simp [Ordinary]

theorem routine_basic (context : MethodContext) (hasRegions : Bool) (op : Opcode)
    (immediate : Option Int32) : Yields (Routine context) (basic context hasRegions op immediate) := by
  unfold basic
  repeat' split
  all_goals simp [Ordinary, binary, unary, comparison, arrayLoad, arrayLength, monitor,
    routine_arrayStore, routine_newPrimitiveArray, routine_methodReturn]

theorem routine_localAccess (context : MethodContext) (op : Opcode) (slot : Slot)
    (delta : Option Int32) : Yields (Routine context) (localAccess context.list op slot delta) := by
  unfold localAccess
  repeat' split
  all_goals simp [Ordinary]

theorem routine_constantLoad (context : MethodContext) (constant : Constant)
    (poolOffset : Option Nat) : Yields (Routine context) (constantLoad constant poolOffset) := by
  unfold constantLoad
  repeat' split
  all_goals simp [Ordinary]

theorem routine_expression (context : MethodContext) (list : Listing) (instruction : Instr) :
    Yields (Routine context) (expression list instruction) := by
  refine yields_map _ fun value => ?_
  dsimp only
  split <;> simp [Ordinary]

theorem routine_newReferenceArray (context : MethodContext) (typeName : String) :
    Yields (Routine context) (newReferenceArray typeName) := by
  unfold newReferenceArray
  dsimp only
  generalize (if TypeName.isArray typeName then "[" ++ typeName else "[L" ++ typeName ++ ";") = name
  split <;> simp [Ordinary]

theorem routine_typeOperation (context : MethodContext) (op : Opcode) (typeName : String) :
    Yields (Routine context) (typeOperation op typeName) := by
  unfold typeOperation
  repeat' split
  all_goals simp [Ordinary, routine_newReferenceArray]

theorem ordinary_backrefs (identities : List String) :
    ∀ single ∈ backrefs identities, Ordinary context single := by
  fun_induction backrefs identities with
  | case1 outer inner rest ih => exact List.forall_mem_cons.mpr ⟨trivial, ih⟩
  | case2 => simp

theorem routine_multiArray (context : MethodContext) (descriptor : String) (count : Nat) :
    Yields (Routine context) (multiArray descriptor count) := by
  unfold multiArray
  dsimp only
  split
  · simp
  split
  · simp
  · refine yields_bind _ fun element => (yields_ok _ _).mpr ?_
    have links (identities : List String) :
        ∀ single ∈ if element = .object then backrefs identities else [],
          Ordinary context single := by
      split
      · exact ordinary_backrefs identities
      · simp
    refine (routine_cons_block _ _).mpr ⟨?_, routine_nil⟩
    simp only [List.mem_append, List.mem_map, List.mem_singleton]
    rintro single ((⟨dimension, _, rfl⟩ | link) | rfl)
    · exact trivial
    · exact links _ single link
    · exact trivial

theorem ordinary_releaseIf (condition : Bool) (name : String) :
    ∀ single ∈ releaseIf condition name, Ordinary context single := by
  cases condition <;> simp [releaseIf, Ordinary]

theorem routine_readField (context : MethodContext) (access : FieldAccess) (type : StackType) :
    Yields (Routine context) (readField context access type) := by
  unfold readField
  dsimp only
  split
  · exact yields_map _ fun this => by simp [Ordinary]
  · simp [Ordinary]

theorem routine_writeField (context : MethodContext) (access : FieldAccess) (type : StackType) :
    Yields (Routine context) (writeField context access type) := by
  have store (object : String) : Ordinary context
      (.set { function := FieldAccess.accessor "set_field" access.owner access.name
              args := [threadState, "__value", object] }) :=
    ⟨"set_field", by simp, access.owner, access.name, rfl⟩
  have released := @ordinary_releaseIf context (decide (type = .object)) "__value"
  unfold writeField
  dsimp only
  split
  · refine yields_map _ fun this => (routine_cons_block _ _).mpr ⟨?_, routine_nil⟩
    simp only [List.cons_append, List.nil_append, List.forall_mem_cons]
    exact ⟨trivial, store this, released⟩
  · refine (yields_ok _ _).mpr ((routine_cons_block _ _).mpr ⟨?_, routine_nil⟩)
    simp only [List.cons_append, List.nil_append, List.forall_mem_cons, List.forall_mem_append]
    exact ⟨trivial, trivial, trivial, store "__object", released, by simp [Ordinary]⟩

theorem routine_staticField (context : MethodContext) (access : FieldAccess) (type : StackType) :
    Routine context (staticField context.index access type) := by
  unfold staticField
  dsimp only
  repeat' split
  all_goals simp [Ordinary]

theorem routine_fieldAccess (context : MethodContext) (access : FieldAccess) :
    Yields (Routine context) (fieldAccess context access) := by
  refine yields_bind _ fun type => ?_
  dsimp only
  split
  · exact (yields_ok _ _).mpr (routine_staticField context access _)
  · exact (yields_ok _ _).mpr (routine_staticField context access _)
  · exact routine_readField context access _
  · exact routine_writeField context access _
  · simp

theorem ordinary_performCall (context : MethodContext) (call : Call) (type : MethodType)
    (receiver : Option Argument) (args : List Argument) :
    Ordinary context (performCall context.index call type receiver args) := by
  unfold performCall
  dsimp only
  repeat' split
  all_goals first | exact trivial | exact ⟨call, type, rfl⟩

theorem routine_invokeItems (context : MethodContext) (call : Call) (type : MethodType)
    (receiver : Option Argument) (args : List Argument) :
    Routine context (invokeItems context.index call type receiver args) := by
  have checks : ∀ single ∈ nullCheck receiver, Ordinary context single := by
    unfold nullCheck
    split <;> simp [Ordinary]
  have pops (operands : List Argument) :
      ∀ single ∈ operands.flatMap Argument.pop, Ordinary context single := by
    intro single member
    obtain ⟨operand, _, made⟩ := List.mem_flatMap.mp member
    cases operand with
    | literal => simp [Argument.pop] at made
    | popped =>
        obtain rfl := List.mem_singleton.mp made
        exact trivial
  have releases (operands : List Argument) :
      ∀ single ∈ operands.flatMap Argument.release, Ordinary context single := by
    intro single member
    obtain ⟨operand, _, made⟩ := List.mem_flatMap.mp member
    unfold Argument.release at made
    split at made
    · obtain rfl := List.mem_singleton.mp made
      exact trivial
    · simp at made
  have body (operands : List Argument) :
      ∀ single ∈ nullCheck receiver ++ [performCall context.index call type receiver args] ++
        operands.flatMap Argument.release, Ordinary context single := by
    simp only [List.mem_append, List.mem_singleton]
    rintro single ((check | rfl) | released)
    · exact checks single check
    · exact ordinary_performCall ..
    · exact releases operands single released
  unfold invokeItems
  dsimp only
  split
  · exact routine_stmts (body _)
  · refine (routine_cons_block _ _).mpr ⟨?_, routine_nil⟩
    exact List.forall_mem_append.mpr ⟨pops _, body _⟩

theorem routine_invoke (context : MethodContext) (call : Call) :
    Yields (fun made => Routine context made.1) (invoke context call) := by
  refine yields_bind _ fun type => ?_
  split
  · simp
  split
  · simp
  · exact yields_bind _ fun receiver => (yields_ok _ _).mpr (routine_invokeItems context call type _ _)

end

/-! Branches and switches -/

def branches : Instr → Bool
  | .jump .. | .switch .. => true
  | _ => false

theorem jumpTargets_of_branches {instruction : Instr} (none : branches instruction = false) :
    instruction.jumpTargets = [] := by
  cases instruction <;> first | rfl | cases none

/-- What an instruction other than a label is lowered to, where `reached` says how jumps look. -/
inductive Emits (context : MethodContext) (reached : Label → Jump → Prop) : Instr → List Item → Prop
  | routine {instruction items} : branches instruction = false → Routine context items →
      Emits context reached instruction items
  | goto {op target given jump} : op.condition? = none → reached target jump →
      Emits context reached (.jump op target given) [.stmt (.jump jump)]
  | given {op target condition text jump} : op.condition? = some condition → reached target jump →
      Emits context reached (.jump op target (some text)) [.stmt (.branch (.given text) jump)]
  | conditional {op target condition jump} : op.condition? = some condition → reached target jump →
      Emits context reached (.jump op target none) (conditional condition jump)
  | switch {default keys targets jumps other} : keys.length = targets.length →
      List.Forall₂ reached targets jumps → List.Forall₂ reached default.toList other.toList →
      Emits context reached (.switch default keys targets) [.switch (keys.zip jumps) other]

def Lands (reached : Label → Jump → Prop) (targets : List Label) (items : List Item) : Prop :=
  items.all Item.isQuiet = true ∧ List.Forall₂ reached targets (items.flatMap Item.jumps)

theorem lands_of_straight {reached : Label → Jump → Prop} {items : List Item}
    (straight : ∀ item ∈ items, item.AllOf (·.isStraight = true)) : Lands reached [] items := by
  constructor
  · exact List.all_eq_true.mpr fun item member => Item.isQuiet_of_straight (straight item member)
  · have none : items.flatMap Item.jumps = [] :=
      List.flatMap_eq_nil_iff.mpr fun item member => Item.jumps_of_straight (straight item member)
    rw [none]
    exact .nil

theorem Emits.lands {context : MethodContext} {reached : Label → Jump → Prop} {instruction : Instr}
    {items : List Item} (emits : Emits context reached instruction items) :
    Lands reached instruction.jumpTargets items := by
  cases emits with
  | routine none routine =>
      rw [jumpTargets_of_branches none]
      refine lands_of_straight fun item member => ?_
      exact (routine item member).mono fun _ ordinary => ordinary.isStraight
  | goto _ reaches => exact ⟨rfl, .cons reaches .nil⟩
  | given _ reaches => exact ⟨rfl, .cons reaches .nil⟩
  | @conditional _ _ condition jump _ reaches =>
      have single : (Emission.conditional condition jump).flatMap Item.jumps = [jump] := by
        cases condition <;> rfl
      constructor
      · cases condition <;> rfl
      · rw [single]
        exact .cons reaches .nil
  | @switch default keys targets jumps other arity reaches defaults =>
      refine ⟨rfl, ?_⟩
      have lengths : keys.length = jumps.length := by rw [arity, reaches.length_eq]
      have zipped : (keys.zip jumps).map Prod.snd = jumps := List.map_snd_zip (by omega)
      have all : [Item.switch (keys.zip jumps) other].flatMap Item.jumps = jumps ++ other.toList := by
        simp [Item.jumps, zipped]
      rw [all]
      exact List.rel_append reaches defaults

end Emission

theorem Listing.labelOf?_eq_some {instruction : Instr} {id : Label}
    (found : labelOf? instruction = some id) : instruction = .label id := by
  cases instruction <;> simp_all [labelOf?]

theorem MethodScope.referenced_catchDepth (scope : MethodScope) (target : Label)
    (labels : List Label) :
    (scope.catchDepth target labels).2.referenced = scope.referenced := by
  unfold catchDepth
  split
  · rfl
  · split <;> rfl

structure BodyState.SameScopes (state after : BodyState) : Prop where
  regions : after.scope.regions = state.scope.regions
  referenced : after.scope.referenced = state.scope.referenced
  opened : after.openRegions = state.openRegions

theorem BodyState.SameScopes.refl (state : BodyState) : state.SameScopes state := ⟨rfl, rfl, rfl⟩

namespace Emit

variable {α β : Type} {inv : BodyState → Prop} {kind : Error → Prop}

theorem run_get (state : BodyState) : (get : Emit BodyState).run.run state = (.ok state, state) := rfl

theorem run_set (state after : BodyState) :
    (set after : Emit PUnit).run.run state = (.ok ⟨⟩, after) := rfl

/-- An action keeps an invariant, yields only good values and fails with errors of one kind only. -/
def Ensures (inv : BodyState → Prop) (good : α → Prop) (kind : Error → Prop) (action : Emit α) :
    Prop :=
  ∀ state, inv state → inv (action.run.run state).2 ∧
    (∀ value, (action.run.run state).1 = .ok value → good value) ∧
    Result.Fails kind (action.run.run state).1

theorem ensures_pure {good : α → Prop} {value : α} (holds : good value) :
    Ensures inv good kind (pure value) := by
  intro state given
  refine ⟨given, ?_, fails_ok value⟩
  intro other same
  cases same
  exact holds

theorem ensures_lift {good : α → Prop} {result : Except Error α}
    (holds : ∀ value, result = .ok value → good value) (fails : Result.Fails kind result) :
    Ensures inv good kind (liftM result : Emit α) :=
  fun _ given => ⟨given, holds, fails⟩

theorem ensures_throw {good : α → Prop} {error : Error} (holds : kind error) :
    Ensures inv good kind (throw error : Emit α) := by
  intro state given
  refine ⟨given, ?_, (fails_error error).mpr holds⟩
  intro value same
  cases same

theorem Ensures.bind {fine : α → Prop} {good : β → Prop} {action : Emit α} {next : α → Emit β}
    (first : Ensures inv fine kind action)
    (rest : ∀ value, fine value → Ensures inv good kind (next value)) :
    Ensures inv good kind (action >>= next) := by
  intro state given
  obtain ⟨kept, values, fails⟩ := first state given
  rw [run_bind]
  split
  next value after ran =>
    rw [ran] at kept values
    exact rest value (values value rfl) after kept
  next error after ran =>
    rw [ran] at kept fails
    exact ⟨kept, fun value ok => (by cases ok), (fails_error error).mpr (fails error rfl)⟩

theorem ensures_get : Ensures inv (fun _ => True) kind (get : Emit BodyState) :=
  fun state given => ⟨given, fun _ _ => trivial, fails_ok state⟩

theorem ensures_modify {change : BodyState → BodyState}
    (kept : ∀ state, inv state → inv (change state)) :
    Ensures inv (fun _ => True) kind (modify change : Emit PUnit) :=
  fun state given => ⟨kept state given, fun _ _ => trivial, fails_ok _⟩

theorem ensures_list_mapM {related : α → β → Prop} {action : α → Emit β}
    (each : ∀ value, Ensures inv (related value) kind (action value)) (values : List α) :
    Ensures inv (List.Forall₂ related values) kind (values.mapM action) := by
  induction values with
  | nil => exact ensures_pure .nil
  | cons value rest ih =>
      rw [List.mapM_cons]
      exact (each value).bind fun _ first => ih.bind fun _ others => ensures_pure (.cons first others)

theorem ensures_option_mapM {related : α → β → Prop} {action : α → Emit β}
    (each : ∀ value, Ensures inv (related value) kind (action value)) (value : Option α) :
    Ensures inv (fun made => List.Forall₂ related value.toList made.toList) kind
      (value.mapM action) := by
  cases value with
  | none => exact ensures_pure .nil
  | some value =>
      rw [Option.mapM_some, map_eq_pure_bind]
      exact (each value).bind fun _ related => ensures_pure (.cons related .nil)

end Emit

namespace Emission

open C Emit

theorem run_jumpTo (labels : List Label) (target : Label) (state : BodyState) :
    (jumpTo labels target).run.run state =
      if state.scope.hasRegions then
        ((state.scope.catchDepth target labels).1.map fun depth => { target, depth := some depth },
          { state with scope := (state.scope.catchDepth target labels).2 })
      else (.ok { target, depth := none }, state) := by
  cases regions : state.scope.hasRegions with
  | false =>
      simp only [jumpTo, run_bind, run_get, regions]
      rfl
  | true =>
      simp only [jumpTo, run_bind, run_get, run_set, regions, ↓reduceIte]
      cases (state.scope.catchDepth target labels).1 <;> rfl

section

variable {inv : BodyState → Prop} {kind : Error → Prop} {reached : Label → Jump → Prop}
  {context : MethodContext} (refuses : ∀ cause, kind (.unsupported cause))
  (jumps : ∀ target, Ensures inv (reached target) kind (jumpTo context.labels target))
include refuses jumps

theorem ensures_branch (op : Opcode) (target : Label) (given : Option String) :
    Ensures inv (Emits context reached (.jump op target given)) kind
      (branch context.labels op target given) := by
  unfold branch
  split
  · exact ensures_throw (refuses _)
  · exact ensures_throw (refuses _)
  · exact (jumps target).bind fun jump reaches => ensures_pure (.goto rfl reaches)
  · exact (jumps target).bind fun jump reaches => ensures_pure (.goto rfl reaches)
  · split
    · exact ensures_throw (refuses _)
    next condition found =>
      refine (jumps target).bind fun jump reaches => ?_
      split
      · exact ensures_pure (.given found reaches)
      · exact ensures_pure (.conditional found reaches)

theorem ensures_switch (default : Option Label) (keys : List Int32) (targets : List Label) :
    Ensures inv (Emits context reached (.switch default keys targets)) kind
      (switch context.labels default keys targets) := by
  unfold switch
  split
  · exact ensures_throw (refuses _)
  next arity =>
    refine (ensures_list_mapM jumps targets).bind fun cases reaches => ?_
    refine (ensures_option_mapM jumps default).bind fun other defaults => ensures_pure ?_
    exact .switch (not_not.mp arity) reaches defaults

end

theorem ensures_emits {inv : BodyState → Prop} {kind : Error → Prop}
    {reached : Label → Jump → Prop} {context : MethodContext} {instruction : Instr}
    (other : Listing.labelOf? instruction = none)
    (refuses : ∀ cause, kind (.unsupported cause))
    (renders : instruction.operands ≠ [] → Result.Fails kind (context.list.render instruction))
    (calls : ∀ call, instruction = .invoke call → ∀ (state : BodyState) (names : NameSet),
      inv state → inv { state with virtualCalls := names })
    (jumps : ∀ target, Ensures inv (reached target) kind (jumpTo context.labels target)) :
    Ensures inv (Emits context reached instruction) kind (instr context instruction) := by
  have unsupported {α : Type} {result : Except Error α} (fails : Result.Fails Error.IsUnsupported result) :
      Result.Fails kind result := by
    refine fails.mono fun error unsupported => ?_
    cases error with
    | unsupported cause => exact refuses cause
    | _ => exact absurd unsupported (by simp)
  have lifted {instruction : Instr} (none : branches instruction = false)
      {result : Except Error (List Item)} (routine : Yields (Routine context) result)
      (fails : Result.Fails kind result) :
      Ensures inv (Emits context reached instruction) kind (liftM result) :=
    ensures_lift (fun items made => .routine none (routine items made)) fails
  cases instruction with
  | basic op immediate =>
      refine ensures_get.bind fun state _ => ?_
      exact lifted rfl (routine_basic context _ op immediate)
        (unsupported (fails_basic context _ op immediate))
  | localVar op slot delta =>
      exact lifted rfl (routine_localAccess context op slot delta)
        (unsupported (fails_localAccess _ op slot delta))
  | namedLocal op slot name tag delta =>
      refine (ensures_lift (fun _ _ => trivial) (unsupported (fails_localCheck op slot name tag))).bind
        fun _ (_ : True) => ?_
      exact lifted rfl (routine_localAccess context op slot delta)
        (unsupported (fails_localAccess _ op slot delta))
  | field access =>
      exact lifted rfl (routine_fieldAccess context access) (unsupported (fails_fieldAccess context access))
  | invoke call =>
      have made : Ensures inv (fun made : List Item × Option String => Routine context made.1) kind
          (liftM (invoke context call) : Emit _) :=
        ensures_lift (routine_invoke context call) (unsupported (fails_invoke context call))
      refine made.bind fun ⟨items, symbol⟩ routine => ?_
      exact (ensures_modify fun state given => calls call rfl state _ given).bind
        fun _ _ => ensures_pure (.routine rfl routine)
  | jump op target condition => exact ensures_branch refuses jumps op target condition
  | label id => simp [Listing.labelOf?] at other
  | switch default keys targets => exact ensures_switch refuses jumps default keys targets
  | tryRegion region => exact ensures_pure (.routine rfl routine_nil)
  | type op typeName =>
      exact lifted rfl (routine_typeOperation context op typeName)
        (unsupported (fails_typeOperation op typeName))
  | multiArray descriptor dimensions =>
      exact lifted rfl (routine_multiArray context descriptor dimensions.toNat)
        (unsupported (fails_multiArray descriptor dimensions.toNat))
  | constant value poolOffset =>
      exact lifted rfl (routine_constantLoad context value poolOffset)
        (unsupported (fails_constantLoad value poolOffset))
  | _ =>
      exact lifted rfl (routine_expression context _ _)
        ((fails_map _ _).mpr (renders (by simp [Instr.operands])))

theorem ensures_instr {inv : BodyState → Prop} {kind : Error → Prop}
    {reached : Label → Jump → Prop} {context : MethodContext} {instruction : Instr}
    (other : Listing.labelOf? instruction = none)
    (refuses : ∀ cause, kind (.unsupported cause))
    (renders : instruction.operands ≠ [] → Result.Fails kind (context.list.render instruction))
    (calls : ∀ call, instruction = .invoke call → ∀ (state : BodyState) (names : NameSet),
      inv state → inv { state with virtualCalls := names })
    (jumps : ∀ target, Ensures inv (reached target) kind (jumpTo context.labels target)) :
    Ensures inv (Lands reached instruction.jumpTargets) kind (instr context instruction) := by
  intro state given
  obtain ⟨kept, emits, fails⟩ := ensures_emits other refuses renders calls jumps state given
  exact ⟨kept, fun items made => (emits items made).lands, fails⟩

theorem leaves_instr {context : MethodContext} {instruction : Instr} {state after : BodyState}
    {items : List Item} (other : Listing.labelOf? instruction = none)
    (ran : (instr context instruction).run.run state = (.ok items, after)) :
    state.SameScopes after ∧ Emits context (fun _ _ => True) instruction items := by
  have jumps (target : Label) :
      Ensures state.SameScopes (fun _ : Jump => True) (fun _ => True)
        (jumpTo context.labels target) := by
    intro middle same
    refine ⟨?_, fun _ _ => trivial, fun _ _ => trivial⟩
    rw [run_jumpTo]
    split
    · exact ⟨(MethodScope.regions_catchDepth ..).trans same.regions,
        (MethodScope.referenced_catchDepth ..).trans same.referenced, same.opened⟩
    · exact same
  obtain ⟨same, emitted, _⟩ := ensures_emits other (fun _ => trivial) (fun _ _ _ => trivial)
    (fun _ _ _ _ same => ⟨same.regions, same.referenced, same.opened⟩) jumps state (.refl state)
  rw [ran] at same emitted
  exact ⟨same, emitted items rfl⟩

theorem instrs_cons_eq_ok {context : MethodContext} {annotate : Bool} {instruction : Instr}
    {rest : List Instr} {state after : BodyState} {items : List Item}
    (ran : (instrs context annotate (instruction :: rest)).run.run state = (.ok items, after)) :
    ∃ first middle others, (instr context instruction).run.run state = (.ok first, middle) ∧
      (instrs context annotate rest).run.run middle = (.ok others, after) ∧
      items = (if annotate then annotation instruction else []) ++ first ++ others := by
  simp only [instrs, run_bind] at ran
  split at ran
  next first middle here =>
    split at ran
    next others last later =>
      cases ran
      exact ⟨first, middle, others, here, later, rfl⟩
    next => cases ran
  next => cases ran

end Emission

end BytecodeToC
