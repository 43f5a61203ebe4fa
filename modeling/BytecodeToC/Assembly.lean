import BytecodeToC.Listing
import BytecodeToC.UnitState

/-!
The listing of a method, made from its records. Try regions come first and are registered with the
unit, string and class literals enter the constant pool, and named accesses name their locals.

In an instance method that never writes local 0 that local is the receiver, and a load of it
followed by a field read becomes one read of the receiver's field.
-/

namespace BytecodeToC

def opcodeNamed (name : String) : Except Error Opcode :=
  match Opcode.ofMnemonic? name with
  | some op => .ok op
  | none => .error (.unsupported (.unknownOpcode name))

namespace Record

def localAccess (op : String) (slot : Option Slot) : Except Error (Opcode × Slot) :=
  match Opcode.slotForm? op, slot with
  | some access, _ => .ok access
  | none, some slot => (opcodeNamed op).map fun op => (op, slot)
  | none, none => .error (.unsupported (.missingSlot op))

def namedInstr (op : Opcode) (slot : Slot) (name : String) (tag : Char) (delta : Option Int32) :
    Except Error Instr :=
  (LocalName.check op slot name tag).map fun _ => .namedLocal op slot name tag delta

def localInstr (op : String) (slot : Option Slot) (name : Option String) (tag : Option Char) :
    Except Error Instr := do
  let (code, slot) ← localAccess op slot
  if code = .ret then
    .error (.unsupported .subroutineReturn)
  else
    match code.localType? with
    | none => .error (.unsupported (.notLocalInstruction op))
    | some kind =>
      match name with
      | some name => namedInstr code slot name (tag.getD (LocalName.defaultTag kind)) none
      | none => .ok (.localVar code slot none)

def isFieldOpcode (op : Opcode) : Bool := [.getstatic, .putstatic, .getfield, .putfield].contains op

def isTypeOpcode (op : Opcode) : Bool := [.new, .anewarray, .checkcast, .instanceof].contains op

def dispatch (op name descriptor : String) : Except Error Dispatch :=
  match op with
  | "invokestatic" => .ok .static
  | "invokespecial" => .ok .special
  | "invokevirtual" => .ok .virtual
  | "invokeinterface" => .ok .interface
  | "invokedynamic" => .error (.unsupported (.dynamicCall name descriptor))
  | other => .error (.unsupported (.notInvokeInstruction other))

def receiver (owner name : String) : Option String → Bool → Except Error Receiver
  | some _, true => .error (.unsupported (.twoReceivers owner name))
  | some text, false => .ok (.literal text)
  | none, true => .ok .currentObject
  | none, false => .ok .stack

def consecutiveKeys? (low : Int32) (count : Nat) : Option (List Int32) :=
  (List.range count).mapM fun (offset : Nat) =>
    let key := low.toInt + (offset : Int)
    if key ≤ Int32.maxValue.toInt then some (Int32.ofInt key) else none

def switchKeys (keys : List Int32) (low : Option Int32) (targets : List Label) :
    Except Error (List Int32) :=
  if keys ≠ [] then .ok keys
  else
    match low with
    | some low =>
      match consecutiveKeys? low targets.length with
      | some keys => .ok keys
      | none => .error (.unsupported .switchKeyOverflow)
    | none => if targets = [] then .ok [] else .error (.unsupported .switchWithoutKeys)

/-- An element name without the leading `T_` that some tools write. -/
def dropTypeMark : List Char → List Char
  | 'T' :: '_' :: rest => dropTypeMark rest
  | name => name

def newArrayInstr (element : String) : Except Error Instr :=
  let word := String.ofList ((dropTypeMark element.toList).map Char.toLower)
  match Primitive.ofKeyword? word with
  | some primitive => .ok (.basic .newarray (some primitive.arrayCode))
  | none => .error (.unsupported (.arrayElement word))

def instr : Record → Except Error Instr
  | simple op operand =>
    match Opcode.slotForm? op with
    | some (code, slot) => .ok (.localVar code slot none)
    | none => do
      let code ← opcodeNamed op
      if (code = .bipush ∨ code = .sipush) ∧ operand = none then
        .error (.unsupported (.missingOperand op))
      else
        .ok (.basic code operand)
  | localVar op slot name tag => localInstr op slot name tag
  | increment slot delta (some name) => namedInstr .iinc slot name 'I' (some delta)
  | increment slot delta none => .ok (.localVar .iinc slot (some delta))
  | field op owner name descriptor useThis => do
    let code ← opcodeNamed op
    if isFieldOpcode code then
      let _ ← FieldType.parse descriptor
      .ok (.field { op := code, owner, name, descriptor, useThis })
    else
      .error (.unsupported (.notFieldInstruction op))
  | invoke op owner name descriptor literalArgs receiverText selfCall discardResult => do
    let dispatch ← dispatch op name descriptor
    let receiver ← receiver owner name receiverText selfCall
    .ok (.invoke { dispatch, owner, name, descriptor, literalArgs, receiver, discardResult })
  | jump op target condition => do
    let code ← opcodeNamed op
    .ok (.jump (if code = .gotoW then .goto else code) target condition)
  | label id => .ok (.label id)
  | switch default keys low targets => do
    let keys ← switchKeys keys low targets
    .ok (.switch default keys targets)
  | type op typeName => do
    let code ← opcodeNamed op
    if !isTypeOpcode code then
      .error (.unsupported (.notTypeInstruction op))
    else if !TypeName.isValid typeName || (code = .new && TypeName.isArray typeName) then
      .error (.unsupported (.typeOperand code typeName))
    else
      .ok (.type code typeName)
  | newArray element => newArrayInstr element
  | multiArray descriptor dimensions => .ok (.multiArray descriptor dimensions)
  | constant value => .ok (.constant value none)

def writesReceiver : Record → Bool
  | localVar op slot _ _ =>
    match Opcode.slotForm? op with
    | some (code, slot) => code.isStore && slot = 0
    | none => ((Opcode.ofMnemonic? op).map Opcode.isStore).getD false && slot = some 0
  | simple op _ =>
    match Opcode.slotForm? op with
    | some (code, slot) => code.isStore && slot = 0
    | none => false
  | increment slot _ _ => slot = 0
  | _ => false

end Record

def ConstantPool.place (pool : ConstantPool) : Instr → Instr × ConstantPool
  | .constant (.string text) _ =>
    let (offset, grown) := pool.intern (.string text)
    (.constant (.string text) (some offset), grown)
  | .constant (.type name) _ =>
    let (offset, grown) := pool.intern (.type name)
    (.constant (.type name) (some offset), grown)
  | instr => (instr, pool)

namespace Listing

def bindNameOf (list : Listing) : Instr → Except Error Listing
  | .namedLocal op slot name _ _ =>
    match op.localType? with
    | some type => list.bindName slot type name
    | none => .ok list
  | _ => .ok list

def endsWithReceiver (list : Listing) : Bool :=
  match list.order.getLast?.bind list.node? with
  | some (.localVar op slot _) => op = .aload && slot = 0
  | _ => false

/-- Appends an instruction. If local 0 is the receiver, a field read takes the place of a load of
it. -/
def append (list : Listing) (receiverStable : Bool) (instr : Instr) : Listing :=
  match instr with
  | .field access =>
    if receiverStable && access.op = .getfield && !access.useThis && list.endsWithReceiver then
      (list.pop.2.push (.field { access with useThis := true })).2
    else (list.push instr).2
  | _ => (list.push instr).2

/-- Appends the instructions of records; the pool keeps what it has taken in when a record fails. -/
def appendRecords (receiverStable : Bool) :
    List Record → Listing → ConstantPool → Except Error Listing × ConstantPool
  | [], list, pool => (.ok list, pool)
  | record :: rest, list, pool =>
    match record.instr with
    | .error error => (.error error, pool)
    | .ok instr =>
      let (placed, grown) := pool.place instr
      match list.bindNameOf placed with
      | .error error => (.error error, grown)
      | .ok named => appendRecords receiverStable rest (named.append receiverStable placed) grown

/-- Registers the regions of an exception table, except empty ones, and lists them. -/
def appendRegions : List TryEntry → Listing → MethodScope → Listing × MethodScope
  | [], list, scope => (list, scope)
  | entry :: rest, list, scope =>
    if entry.start = entry.finish then appendRegions rest list scope
    else
      let (region, grown) :=
        scope.register entry.start entry.finish entry.handler entry.catchType
      appendRegions rest (list.push (.tryRegion region)).2 grown

end Listing

namespace MethodDecl

def receiverStable (method : MethodDecl) : Bool :=
  !method.isStatic && !method.code.any Record.writesReceiver

/-- The listing of a method. What it registered with the unit stays if a record fails. -/
def assemble (method : MethodDecl) (unit : UnitState) : Except Error Listing × UnitState :=
  let (regions, scope) := Listing.appendRegions method.tryCatch .empty unit.scope
  let (result, pool) :=
    Listing.appendRecords method.receiverStable method.code regions unit.pool
  (result, { unit with scope, pool })

end MethodDecl

end BytecodeToC
