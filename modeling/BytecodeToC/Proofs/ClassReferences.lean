import BytecodeToC.Proofs.Descriptors
import BytecodeToC.Proofs.Ownership
import BytecodeToC.Proofs.SymbolWords

/-!
The classes that lowered code refers to. A reference is a C name made from a class symbol: a field
accessor, an allocator, a class identity, the class of a handler or the function of a call. The names
of this kind that stand in an emitted body are those of its instructions, in their order.
-/

namespace BytecodeToC

open Result

inductive Reference where
  | accessor (kind owner name : String)
  | allocation (name : String)
  | identity (typeName : String)
  | handler (catchType : Option String)
  | target (dispatch : Dispatch) (owner name : String) (type : MethodType)
deriving DecidableEq, Repr

namespace Reference

def text : Reference → String
  | accessor kind owner name => FieldAccess.accessor kind owner name
  | allocation name => "__NEW_" ++ Symbol.ofClass name
  | identity typeName => Symbol.classIdentity typeName
  | handler none => "CATCH_ALL"
  | handler (some name) => Symbol.classId name
  | target .static owner name type | target .special owner name type =>
    Symbol.ofMethod owner name type
  | target .virtual owner name type | target .interface owner name type =>
    "virtual_" ++ Symbol.ofMethod owner name type

/-- The class whose symbol a reference contains. Arrays of primitives and methods of arrays have
none. -/
def className? : Reference → Option String
  | accessor _ owner _ => some owner
  | allocation name => some name
  | identity typeName =>
    if TypeName.isArray typeName then TypeName.elementClass? typeName else some typeName
  | handler catchType => catchType
  | target _ owner _ _ => if TypeName.isArray owner then none else some owner

end Reference

/-! References of instructions -/

def FieldAccess.usedOwner (index : ClassIndex) (access : FieldAccess) : String :=
  if access.isStatic then index.staticFieldOwner access.owner access.name else access.owner

def FieldAccess.accessorKind (access : FieldAccess) : String :=
  if access.op = .getstatic then "get_static"
  else if access.op = .putstatic then "set_static"
  else if access.op = .getfield then "get_field"
  else "set_field"

def Call.usedOwner (index : ClassIndex) (call : Call) : String :=
  if call.dispatch = .static then index.staticMethodOwner call.owner call.name call.descriptor
  else call.owner

namespace Reference

def ofField (index : ClassIndex) (access : FieldAccess) : Reference :=
  .accessor access.accessorKind (access.usedOwner index) access.name

def ofCall (index : ClassIndex) (call : Call) (type : MethodType) : List Reference :=
  if Emission.isArrayClone call then []
  else [.target call.dispatch (call.usedOwner index) call.name type]

def ofNewArray (code : Option Int32) : List Reference :=
  (code.bind Primitive.ofArrayCode?).toList.map fun kind =>
    .identity ("[" ++ String.singleton kind.letter)

def arrayOf (typeName : String) : String :=
  if TypeName.isArray typeName then "[" ++ typeName else "[L" ++ typeName ++ ";"

def ofType (op : Opcode) (typeName : String) : Reference :=
  match op with
  | .new => .allocation typeName
  | .anewarray => .identity (arrayOf typeName)
  | _ => .identity typeName

/-- An array type and those of its elements that are arrays, outermost first. -/
def nestedArrays (element : String) : Nat → List String
  | 0 => []
  | dimensions + 1 =>
    (String.ofList (List.replicate (dimensions + 1) '[') ++ element) :: nestedArrays element dimensions

def linked : List String → List String
  | outer :: inner :: rest => outer :: inner :: linked (inner :: rest)
  | _ => []

def ofMultiArray (descriptor : String) : List Reference :=
  let arrays := nestedArrays (TypeName.element descriptor) (TypeName.dimensions descriptor)
  let links := match TypeName.elementType descriptor with
    | .ok .object => linked arrays
    | _ => []
  (links ++ arrays).map .identity

end Reference

def Instr.classReferences (index : ClassIndex) (regions : List Region) : Instr → List Reference
  | .basic op code => if op = .newarray then Reference.ofNewArray code else []
  | .field access => [.ofField index access]
  | .invoke call =>
    (MethodType.ofDescriptor? call.descriptor).toList.flatMap (Reference.ofCall index call)
  | .label id =>
    (regions.filter (·.start = id)).reverse.map fun region => .handler region.catchType
  | .type op typeName => [.ofType op typeName]
  | .multiArray descriptor _ => Reference.ofMultiArray descriptor
  | _ => []

/-! Names in emitted code -/

namespace C

def testedIdentity? (value : String) : Option String :=
  (value.toList.dropPrefix? "INSTANCE_OF(__object, &".toList).map fun rest =>
    String.ofList rest.dropLast

def addressed? (argument : String) : Option String :=
  match argument.toList with
  | '&' :: name => some (String.ofList name)
  | _ => none

@[simp] def Fresh.classNames : Fresh → List String
  | object classSymbol => ["__NEW_" ++ classSymbol]
  | array classIdentity _ _ => [classIdentity]
  | multiArray _ args => args.filterMap addressed?
  | null | clone _ => []

@[simp] def Stmt.classNames : Stmt → List String
  | push type value => if type = .int then (testedIdentity? value).toList else []
  | pushCall _ application | call application | set application => [application.function]
  | pushFresh value | releaseFresh value => value.classNames
  | setPopped setter _ => [setter]
  | checkCast _ classIdentity => [classIdentity]
  | classBackref outer inner => [outer, inner]
  | beginTry classId _ _ => [classId]
  | _ => []

@[simp] def Item.classNames : Item → List String
  | stmt single => single.classNames
  | block body => body.flatMap Stmt.classNames
  | switch _ _ | anchor _ => []

theorem testedIdentity?_eq_none {value : String}
    (other : ¬"INSTANCE_OF(__object, &".toList <+: value.toList) : testedIdentity? value = none := by
  unfold testedIdentity?
  cases found : value.toList.dropPrefix? "INSTANCE_OF(__object, &".toList with
  | none => rfl
  | some rest =>
      obtain ⟨opening, whole, same⟩ := List.dropPrefix?_eq_some_iff.mp found
      obtain rfl := beq_iff_eq.mp same
      exact absurd ⟨rest, whole.symm⟩ other

theorem testedIdentity?_of_head {value : String} (other : value.toList.head? ≠ some 'I') :
    testedIdentity? value = none := by
  refine testedIdentity?_eq_none ?_
  rintro ⟨rest, whole⟩
  simp [← whole] at other

theorem testedIdentity?_of_isWord {value : String}
    (word : ∀ c ∈ value.toList, Symbol.IsWord c) : testedIdentity? value = none := by
  refine testedIdentity?_eq_none ?_
  rintro ⟨rest, whole⟩
  exact absurd (word '(' (by simp [← whole])) (by decide)

theorem testedIdentity?_test (identity : String) :
    testedIdentity? ("INSTANCE_OF(__object, &" ++ identity ++ ")") = some identity := by
  rw [testedIdentity?, String.toList_append, String.toList_append, List.append_assoc,
    List.dropPrefix?_append_of_beq _ (by simp)]
  simp

end C

namespace Emission

open C Emit

/-- The class names in emitted items are those of the references. -/
def Refers (references : List Reference) (items : List Item) : Prop :=
  items.flatMap Item.classNames = references.map Reference.text

instance (references : List Reference) (items : List Item) : Decidable (Refers references items) :=
  inferInstanceAs (Decidable (items.flatMap Item.classNames = references.map Reference.text))

/-! Values -/

theorem testedIdentity?_int (value : Int32) : testedIdentity? (Literal.int value) = none := by
  refine testedIdentity?_of_head ?_
  have digits (magnitude : Nat) : (Nat.toDigits 10 magnitude).head? ≠ some 'I' := by
    intro first
    have digit := Nat.isDigit_of_mem_toDigits (by decide) (by decide) (List.mem_of_head? first)
    exact absurd digit (by decide)
  unfold Literal.int
  split
  · decide
  · cases value.toInt with
    | ofNat magnitude => simpa [toString, Int.repr] using digits magnitude
    | negSucc magnitude => simp [toString, Int.repr]

theorem testedIdentity?_binary (op : BinaryOp) : testedIdentity? (op.text "__a" "__b") = none := by
  cases op with
  | arithmetic op kind => cases op <;> cases kind <;> decide +kernel
  | shift op kind => cases op <;> cases kind <;> decide +kernel
  | bitwise op kind => cases op <;> cases kind <;> decide +kernel

theorem testedIdentity?_unary (op : UnaryOp) : testedIdentity? (op.text "__a") = none := by
  cases op with
  | negate kind => cases kind <;> decide +kernel
  | convert source target => cases source <;> cases target <;> decide +kernel
  | narrow target => cases target <;> decide +kernel

theorem testedIdentity?_localName {list : Listing} (named : list.WellNamed) (slot : Slot)
    (type : StackType) : testedIdentity? (list.localName slot type) = none :=
  testedIdentity?_of_isWord (named.localName_plain slot type).1

theorem refers_constantLoad (constant : Constant) (poolOffset : Option Nat) :
    Yields (Refers []) (constantLoad constant poolOffset) := by
  unfold constantLoad
  split
  · simp
  · split
    next text type known =>
      have quiet : (Stmt.push type text).classNames = [] := by
        cases constant with
        | int value =>
            cases known
            simp [testedIdentity?_int]
        | long | float | double =>
            cases known
            rfl
        | string | type =>
            obtain ⟨offset, _, same⟩ := Option.map_eq_some_iff.mp known
            cases same
            rfl
        | methodHandle => simp [Instr.constantValue?] at known
      simpa [Refers] using quiet
    next => simp

theorem refers_localAccess {list : Listing} (named : list.WellNamed) (op : Opcode) (slot : Slot)
    (delta : Option Int32) : Yields (Refers []) (localAccess list op slot delta) := by
  unfold localAccess
  repeat' split
  all_goals simp [Refers, testedIdentity?_localName named]

theorem refers_comparison {op : Opcode} {type : StackType} {unordered : Option String}
    (found : comparison? op = some (type, unordered)) : Refers [] (comparison type unordered) := by
  unfold comparison? at found
  split at found
  all_goals cases found
  all_goals decide +kernel

theorem refers_arrayLoad (element : ElementType) : Refers [] (arrayLoad element) := by
  cases element <;> decide +kernel

theorem refers_arrayStore (element : ElementType) : Refers [] (arrayStore element) := by
  cases element <;> decide +kernel

theorem refers_immediate {op : Opcode} {immediate : Option Int32} {text : String}
    {type : StackType} (known : Instr.immediateValue? op immediate = some (text, type)) :
    Refers [] [.stmt (.push type text)] := by
  unfold Instr.immediateValue? at known
  split at known
  all_goals
    first
    | cases known; decide +kernel
    | cases known
    | obtain ⟨value, _, same⟩ := Option.map_eq_some_iff.mp known
      cases same
      simp [Refers, testedIdentity?_int]

theorem classNames_leave (context : MethodContext) (hasRegions : Bool) :
    (leave context hasRegions).flatMap Stmt.classNames = [] := by
  cases hasRegions <;> simp [leave, List.flatMap_map]

theorem refers_methodReturn (context : MethodContext) (hasRegions : Bool)
    (type : Option StackType) : Refers [] (methodReturn context hasRegions type) := by
  have silent := classNames_leave context hasRegions
  cases type with
  | none => simpa [methodReturn, Refers, List.flatMap_map] using silent
  | some type => simp [methodReturn, Refers, silent]

theorem refers_newPrimitiveArray (code : Option Int32) :
    Yields (Refers (Reference.ofNewArray code)) (newPrimitiveArray code) := by
  unfold newPrimitiveArray
  split
  next kind found => simp [Refers, Reference.ofNewArray, found, Reference.text]
  next => simp

theorem refers_basic (context : MethodContext) (hasRegions : Bool) (op : Opcode)
    (immediate : Option Int32) :
    Yields (Refers (if op = .newarray then Reference.ofNewArray immediate else []))
      (basic context hasRegions op immediate) := by
  by_cases array : op = .newarray
  · subst array
    exact refers_newPrimitiveArray immediate
  · simp only [array, ↓reduceIte]
    unfold basic
    repeat' split
    next => simp [Refers]
    next => simp [Refers]
    next known => exact (yields_ok _ _).mpr (refers_immediate known)
    next => simp
    next kind _ => simp [Refers]
    next operator _ => simp [Refers, binary, testedIdentity?_binary]
    next operator _ => simp [Refers, unary, testedIdentity?_unary]
    next found => exact (yields_ok _ _).mpr (refers_comparison found)
    next => exact (yields_ok _ _).mpr (refers_arrayLoad _)
    next => exact (yields_ok _ _).mpr (refers_arrayStore _)
    next => exact (yields_ok _ _).mpr (by decide +kernel)
    next => exact (yields_ok _ _).mpr (refers_methodReturn context hasRegions _)
    next => simp [Refers]
    next => exact (yields_ok _ _).mpr (by decide +kernel)
    next => exact (yields_ok _ _).mpr (by decide +kernel)
    next => simp

/-! Objects -/

theorem text_ofField_static (index : ClassIndex) {access : FieldAccess}
    (isStatic : access.op = .getstatic ∨ access.op = .putstatic) :
    (Reference.ofField index access).text =
      FieldAccess.accessor (if access.op = .getstatic then "get_static" else "set_static")
        (index.staticFieldOwner access.owner access.name) access.name := by
  have owner : access.usedOwner index = index.staticFieldOwner access.owner access.name := by
    simp [FieldAccess.usedOwner, FieldAccess.isStatic, isStatic]
  rcases isStatic with read | write
  · simp [Reference.ofField, Reference.text, FieldAccess.accessorKind, owner, read]
  · have other : Opcode.putstatic ≠ .getstatic := by decide
    simp [Reference.ofField, Reference.text, FieldAccess.accessorKind, owner, write, other]

theorem refers_staticField (index : ClassIndex) {access : FieldAccess} (type : StackType)
    (isStatic : access.op = .getstatic ∨ access.op = .putstatic) :
    Refers [.ofField index access] (staticField index access type) := by
  have text := text_ofField_static index isStatic
  unfold staticField
  dsimp only
  split
  next read => simp [Refers, text, read]
  next other => split <;> simp [Refers, text, other]

theorem classNames_releaseIf (condition : Bool) (name : String) :
    (releaseIf condition name).flatMap Stmt.classNames = [] := by
  cases condition <;> rfl

theorem refers_readField (context : MethodContext) {access : FieldAccess} (type : StackType)
    (read : access.op = .getfield) :
    Yields (Refers [.ofField context.index access]) (readField context access type) := by
  have text : (Reference.ofField context.index access).text =
      FieldAccess.accessor "get_field" access.owner access.name := by
    simp only [Reference.ofField, FieldAccess.accessorKind, FieldAccess.usedOwner, FieldAccess.isStatic,
      read]
    rfl
  unfold readField
  dsimp only
  split
  · exact yields_map _ fun this => by simp [Refers, text]
  · simp [Refers, text]

theorem refers_writeField (context : MethodContext) {access : FieldAccess} (type : StackType)
    (write : access.op = .putfield) :
    Yields (Refers [.ofField context.index access]) (writeField context access type) := by
  have text : (Reference.ofField context.index access).text =
      FieldAccess.accessor "set_field" access.owner access.name := by
    simp only [Reference.ofField, FieldAccess.accessorKind, FieldAccess.usedOwner, FieldAccess.isStatic,
      write]
    rfl
  unfold writeField
  dsimp only
  split
  · exact yields_map _ fun this => by simp [Refers, text, classNames_releaseIf]
  · simp [Refers, text, classNames_releaseIf]

theorem refers_fieldAccess (context : MethodContext) (access : FieldAccess) :
    Yields (Refers [.ofField context.index access]) (fieldAccess context access) := by
  refine yields_bind _ fun type => ?_
  dsimp only
  split
  next read => exact (yields_ok _ _).mpr (refers_staticField context.index _ (.inl read))
  next write => exact (yields_ok _ _).mpr (refers_staticField context.index _ (.inr write))
  next read => exact refers_readField context _ read
  next write => exact refers_writeField context _ write
  next => simp

theorem refers_newReferenceArray (typeName : String) :
    Yields (Refers [.identity (Reference.arrayOf typeName)]) (newReferenceArray typeName) := by
  unfold newReferenceArray
  rw [show (if TypeName.isArray typeName then "[" ++ typeName else "[L" ++ typeName ++ ";") =
    Reference.arrayOf typeName from rfl]
  dsimp only
  split
  · simp
  · simp [Refers, Reference.text]

theorem refers_typeOperation (op : Opcode) (typeName : String) :
    Yields (Refers [.ofType op typeName]) (typeOperation op typeName) := by
  unfold typeOperation
  split
  · split <;> simp [Refers, Reference.ofType, Reference.text]
  · exact refers_newReferenceArray typeName
  · simp [Refers, Reference.ofType, Reference.text]
  · simp [Refers, Reference.ofType, Reference.text, testedIdentity?_test]
  · simp

theorem arrayIdentities_eq (element : String) (dimensions : Nat) :
    arrayIdentities element dimensions =
      (Reference.nestedArrays element dimensions).map Symbol.classIdentity := by
  induction dimensions with
  | zero => rfl
  | succ dimensions ih => simp [arrayIdentities, Reference.nestedArrays, ih]

theorem classNames_backrefs (arrays : List String) :
    (backrefs (arrays.map Symbol.classIdentity)).flatMap Stmt.classNames =
      (Reference.linked arrays).map Symbol.classIdentity := by
  match arrays with
  | [] | [_] => rfl
  | outer :: inner :: rest =>
      have later := classNames_backrefs (inner :: rest)
      simpa [backrefs, Reference.linked] using later

theorem filterMap_addressed? (count missing : Nat) (identities : List String) (size : String) :
    ((List.range count).map dimensionName ++ List.replicate missing "-1" ++
      identities.map ("&" ++ ·) ++ ["sizeof(" ++ size ++ ")"]).filterMap addressed? = identities := by
  have dimensions : ((List.range count).map dimensionName).filterMap addressed? = [] := by
    simp [addressed?, dimensionName]
  have fillers : (List.replicate missing "-1").filterMap addressed? = [] := by
    simp [addressed?]
  have addresses : (identities.map ("&" ++ ·)).filterMap addressed? = identities := by
    simp [List.filterMap_map, Function.comp_def, addressed?]
  have sizes : ["sizeof(" ++ size ++ ")"].filterMap addressed? = [] := by
    simp [addressed?]
  simp only [List.filterMap_append, dimensions, fillers, addresses, sizes, List.nil_append,
    List.append_nil]

theorem refers_multiArray (descriptor : String) (count : Nat) :
    Yields (Refers (Reference.ofMultiArray descriptor)) (multiArray descriptor count) := by
  unfold multiArray
  dsimp only
  split
  · simp
  split
  · simp
  · intro items made
    obtain ⟨element, kind, made⟩ := (bind_eq_ok_iff ..).mp made
    cases made
    let arrays := Reference.nestedArrays (TypeName.element descriptor) (TypeName.dimensions descriptor)
    have pops : ((List.range count).reverse.map fun dimension =>
        Stmt.pop .int (dimensionName dimension)).flatMap Stmt.classNames = [] := by
      simp
    have links : (if element = .object then backrefs (arrays.map Symbol.classIdentity) else []).flatMap
        Stmt.classNames = (if element = .object then Reference.linked arrays else []).map
          Symbol.classIdentity := by
      split
      · exact classNames_backrefs arrays
      · rfl
    have references : (Reference.ofMultiArray descriptor).map Reference.text =
        (if element = .object then Reference.linked arrays else []).map Symbol.classIdentity ++
          arrays.map Symbol.classIdentity := by
      unfold Reference.ofMultiArray
      rw [kind]
      cases element <;> simp [Function.comp_def, Reference.text, arrays]
    rw [Refers, references, arrayIdentities_eq, List.flatMap_singleton, Item.classNames,
      List.flatMap_append, List.flatMap_append, pops, links, List.nil_append, List.flatMap_singleton,
      Stmt.classNames, Fresh.classNames, filterMap_addressed?]

/-! Calls -/

theorem text_target (index : ClassIndex) (call : Call) (type : MethodType) :
    (Reference.target call.dispatch (call.usedOwner index) call.name type).text =
      callTarget index call type := by
  unfold callTarget Call.usedOwner
  cases call.dispatch <;> rfl

theorem classNames_performCall (index : ClassIndex) (call : Call) (type : MethodType)
    (receiver : Option Argument) (args : List Argument) :
    (performCall index call type receiver args).classNames =
      (Reference.ofCall index call type).map Reference.text := by
  unfold performCall Reference.ofCall
  split
  · dsimp only
    split <;> rfl
  · dsimp only
    repeat' split
    all_goals simp [text_target]

theorem classNames_operands (operands : List Argument) :
    (operands.flatMap Argument.pop).flatMap Stmt.classNames = [] ∧
      (operands.flatMap Argument.release).flatMap Stmt.classNames = [] := by
  induction operands with
  | nil => exact ⟨rfl, rfl⟩
  | cons operand rest ih =>
      simp only [List.flatMap_cons, List.flatMap_append, ih, List.append_nil]
      cases operand with
      | literal text => exact ⟨rfl, rfl⟩
      | popped type name => cases type <;> exact ⟨rfl, rfl⟩

theorem refers_invokeItems (index : ClassIndex) (call : Call) (type : MethodType)
    (receiver : Option Argument) (args : List Argument) :
    Refers (Reference.ofCall index call type) (invokeItems index call type receiver args) := by
  obtain ⟨pops, releases⟩ := classNames_operands (args.reverse ++ receiver.toList)
  have checks : (nullCheck receiver).flatMap Stmt.classNames = [] := by
    unfold nullCheck
    split <;> rfl
  have body : (nullCheck receiver ++ [performCall index call type receiver args] ++
      (args.reverse ++ receiver.toList).flatMap Argument.release).flatMap Stmt.classNames =
        (Reference.ofCall index call type).map Reference.text := by
    rw [List.flatMap_append, List.flatMap_append, checks, releases, List.flatMap_singleton,
      classNames_performCall, List.nil_append, List.append_nil]
  unfold invokeItems
  dsimp only
  split
  · rw [Refers, List.flatMap_map]
    exact body
  · rw [Refers, List.flatMap_singleton, Item.classNames, List.flatMap_append, pops, body,
      List.nil_append]

theorem refers_invoke (context : MethodContext) (call : Call) :
    Yields (fun made => Refers ((MethodType.ofDescriptor? call.descriptor).toList.flatMap
      (Reference.ofCall context.index call)) made.1) (invoke context call) := by
  intro made success
  obtain ⟨type, parsed, success⟩ := (bind_eq_ok_iff ..).mp success
  rw [MethodType.ofDescriptor?_of_parse parsed, Option.toList_some, List.flatMap_singleton]
  split at success
  · simp at success
  split at success
  · simp at success
  · obtain ⟨receiver, _, success⟩ := (bind_eq_ok_iff ..).mp success
    cases success
    exact refers_invokeItems ..

/-! Labels, branches and bodies -/

theorem refers_label {scope : MethodScope} {opened after : List Nat} {id : Label}
    {items : List Item} (made : label scope opened id = .ok (items, after)) :
    Refers ((scope.regions.filter (·.start = id)).reverse.map fun region =>
      .handler region.catchType) items := by
  obtain ⟨closed, _, _, _, _, rfl, _⟩ := label_eq_ok made
  have anchors : (if scope.isReferenced id then [Item.anchor id] else []).flatMap
      Item.classNames = [] := by
    split <;> rfl
  have closes : (closed.map fun seq => Item.stmt (.endTry seq)).flatMap Item.classNames = [] := by
    simp [List.flatMap_map]
  have opens (regions : List Region) : (regions.flatMap openRegion).flatMap Item.classNames =
      (regions.map fun region => Reference.handler region.catchType).map Reference.text := by
    induction regions with
    | nil => rfl
    | cons region rest ih =>
        have here : catchClass region = (Reference.handler region.catchType).text := by
          unfold catchClass
          cases region.catchType <;> rfl
        simp only [List.flatMap_cons, List.flatMap_append, ih, List.map_cons]
        simp [openRegion, here]
  rw [Refers, List.flatMap_append, List.flatMap_append, anchors, closes, opens]
  rfl

theorem refers_branch (labels : List Label) (op : Opcode) (target : Label) (given : Option String) :
    Makes (Refers []) (branch labels op target given) := by
  have jumps := makes_any (jumpTo labels target)
  unfold branch
  split
  · exact ensures_throw trivial
  · exact ensures_throw trivial
  · exact jumps.bind fun _ _ => ensures_pure rfl
  · exact jumps.bind fun _ _ => ensures_pure rfl
  · split
    · exact ensures_throw trivial
    next condition _ =>
      refine jumps.bind fun jump _ => ?_
      split
      · exact ensures_pure rfl
      · exact ensures_pure (by cases condition <;> rfl)

theorem refers_switch (labels : List Label) (default : Option Label) (keys : List Int32)
    (targets : List Label) : Makes (Refers []) (switch labels default keys targets) := by
  unfold switch
  split
  · exact ensures_throw trivial
  · refine (makes_any _).bind fun cases _ => (makes_any _).bind fun other _ => ?_
    exact ensures_pure rfl

theorem refers_instr {context : MethodContext} (named : context.list.WellNamed)
    {instruction : Instr} (elementary : instruction.operands = []) {state after : BodyState}
    {items : List Item} (ran : (instr context instruction).run.run state = (.ok items, after)) :
    Refers (instruction.classReferences context.index state.scope.regions) items := by
  have made {good : List Item → Prop} (makes : Makes good (instr context instruction)) : good items :=
    (makes state trivial).2.1 items (by rw [ran])
  cases instruction with
  | basic op immediate =>
      exact made (ensures_get.bind fun state _ => makes_lift (refers_basic context _ op immediate))
  | localVar op slot delta => exact made (makes_lift (refers_localAccess named op slot delta))
  | namedLocal op slot name tag delta =>
      exact made ((makes_any _).bind fun _ _ => makes_lift (refers_localAccess named op slot delta))
  | field access => exact made (makes_lift (refers_fieldAccess context access))
  | invoke call =>
      have lifted := makes_lift (refers_invoke context call)
      refine made (lifted.bind fun ⟨items, symbol⟩ refers => ?_)
      exact (makes_any _).bind fun _ _ => ensures_pure refers
  | jump op target condition => exact made (refers_branch _ op target condition)
  | label id =>
      obtain ⟨opened, success, _⟩ := instr_label_eq_ok ran
      exact refers_label success
  | switch default keys targets => exact made (refers_switch _ default keys targets)
  | tryRegion region => exact made (ensures_pure rfl)
  | type op typeName => exact made (makes_lift (refers_typeOperation op typeName))
  | multiArray descriptor dimensions =>
      exact made (makes_lift (refers_multiArray descriptor dimensions.toNat))
  | constant value poolOffset => exact made (makes_lift (refers_constantLoad value poolOffset))
  | _ => simp [Instr.operands] at elementary

theorem regions_instr {context : MethodContext} {instruction : Instr} {state after : BodyState}
    {items : List Item} (ran : (instr context instruction).run.run state = (.ok items, after)) :
    after.scope.regions = state.scope.regions := by
  cases found : Listing.labelOf? instruction with
  | none =>
      exact (leaves_instr found ran).1.regions
  | some id =>
      obtain rfl := Listing.labelOf?_eq_some found
      obtain ⟨opened, _, rfl⟩ := instr_label_eq_ok ran
      rfl

theorem refers_instrs {context : MethodContext} (named : context.list.WellNamed) {annotate : Bool}
    {instructions : List Instr} (elementary : ∀ instruction ∈ instructions, instruction.operands = [])
    {state after : BodyState} {items : List Item}
    (ran : (instrs context annotate instructions).run.run state = (.ok items, after)) :
    Refers (instructions.flatMap (Instr.classReferences context.index state.scope.regions)) items := by
  induction instructions generalizing state items with
  | nil =>
      cases ran
      rfl
  | cons instruction rest ih =>
      obtain ⟨first, middle, others, here, later, rfl⟩ := instrs_cons_eq_ok ran
      have notes : (if annotate then annotation instruction else []).flatMap Item.classNames = [] := by
        cases annotate with
        | false => rfl
        | true => cases instruction <;> rfl
      have head := refers_instr named (elementary instruction List.mem_cons_self) here
      have tail := ih (fun other member => elementary other (List.mem_cons_of_mem _ member)) later
      rw [regions_instr here] at tail
      rw [Refers] at head tail ⊢
      rw [List.flatMap_append, List.flatMap_append, notes, head, tail, List.nil_append,
        List.flatMap_cons, List.map_append]

end Emission

end BytecodeToC
