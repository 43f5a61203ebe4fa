import BytecodeToC.Listing

/-!
C expressions for instructions that compute a value without the operand stack. Constants, loads of
locals and reads of the current object's fields are leaves; an expression node is built from the
expressions of its operands, after a check that their kinds fit the operator.

An operand refers to any node of the arena. Rendering follows such references for as many steps as
the arena has nodes, which is enough whenever they do not form a cycle.
-/

namespace BytecodeToC

inductive Effect where
  | pure
  | mayTrap
deriving DecidableEq, Repr

def Effect.join : Effect → Effect → Effect
  | pure, pure => pure
  | _, _ => mayTrap

structure Value where
  text : String
  type : StackType
  effect : Effect
deriving DecidableEq, Repr

namespace Instr

def immediateValue? (op : Opcode) (immediate : Option Int32) : Option (String × StackType) :=
  match op with
  | .aconstNull => some ("JAVA_NULL", .object)
  | .iconstM1 => some ("-1", .int)
  | .iconst0 => some ("0", .int)
  | .iconst1 => some ("1", .int)
  | .iconst2 => some ("2", .int)
  | .iconst3 => some ("3", .int)
  | .iconst4 => some ("4", .int)
  | .iconst5 => some ("5", .int)
  | .lconst0 => some ("0LL", .long)
  | .lconst1 => some ("1LL", .long)
  | .fconst0 => some ("0.0f", .float)
  | .fconst1 => some ("1.0f", .float)
  | .fconst2 => some ("2.0f", .float)
  | .dconst0 => some ("0.0", .double)
  | .dconst1 => some ("1.0", .double)
  | .bipush | .sipush => immediate.map fun value => (Literal.int value, .int)
  | _ => none

def constantValue? (constant : Constant) (poolOffset : Option Nat) : Option (String × StackType) :=
  match constant with
  | .int value => some (Literal.int value, .int)
  | .long value => some (Literal.long value, .long)
  | .float bits => some (Literal.float bits, .float)
  | .double bits => some (Literal.double bits, .double)
  | .string _ =>
    poolOffset.map fun offset => ("STRING_FROM_CONSTANT_POOL_OFFSET(" ++ toString offset ++ ")", .object)
  | .type _ =>
    poolOffset.map fun offset => ("CLASS_FROM_CONSTANT_POOL_OFFSET(" ++ toString offset ++ ")", .object)
  | .methodHandle _ => none

theorem constantValue?_string (text : String) (offset : Nat) :
    constantValue? (.string text) (some offset) =
      some ("STRING_FROM_CONSTANT_POOL_OFFSET(" ++ toString offset ++ ")", .object) := rfl

theorem constantValue?_type (name : String) (offset : Nat) :
    constantValue? (.type name) (some offset) =
      some ("CLASS_FROM_CONSTANT_POOL_OFFSET(" ++ toString offset ++ ")", .object) := rfl

end Instr

def FieldAccess.accessor (action owner name : String) : String :=
  action ++ "_" ++ Symbol.ofClass owner ++ "_" ++ Symbol.ofMember name

namespace Listing

def localValue? (list : Listing) (op : Opcode) (slot : Slot) : Option (String × StackType) :=
  if op.isLoad then op.localType?.map fun type => (list.localName slot type, type) else none

def leafValue? (list : Listing) (instr : Instr) : Option Value :=
  let found : Option (String × StackType) := match instr with
    | .basic op immediate => Instr.immediateValue? op immediate
    | .localVar op slot _ | .namedLocal op slot _ _ _ => list.localValue? op slot
    | .field access =>
      if access.op = .getfield ∧ access.useThis then
        (FieldType.ofDescriptor? access.descriptor).map fun type =>
          (FieldAccess.accessor "get_field" access.owner access.name ++ "(__this)", type.stackType)
      else none
    | .constant value poolOffset => Instr.constantValue? value poolOffset
    | _ => none
  found.map fun (text, type) => { text, type, effect := .pure }

def expectType (role : String) (op : Opcode) (value : Value) (expected : StackType) :
    Except Error Unit :=
  if value.type = expected then .ok ()
  else .error (.malformed (.wrongType role op value.type expected))

def valueOfNode (list : Listing) (operand : String → NodeId → Except Error Value) (instr : Instr) :
    Except Error Value :=
  match instr with
  | .arith op lhs (some rhs) => do
    let left ← operand "left operand" lhs
    match op.binary? with
    | none => .error (.malformed (.notBinary op))
    | some binary => do
      let right ← operand "right operand" rhs
      expectType "left operand" op left binary.operandTypes.1
      expectType "right operand" op right binary.operandTypes.2
      .ok
        { text := binary.text left.text right.text
          type := binary.resultType
          effect := if binary.dividesIntegers then .mayTrap else left.effect.join right.effect }
  | .arith op lhs none => do
    let value ← operand "left operand" lhs
    match op.unary? with
    | none => .error (.malformed (.notUnary op))
    | some unary => do
      expectType "operand" op value unary.operandType
      .ok { text := unary.text value.text, type := unary.resultType, effect := value.effect }
  | .arrayLoad op arrayId indexId =>
    match op.elementType? with
    | none => .error (.malformed (.notArrayLoad op))
    | some element => do
      let array ← operand "array" arrayId
      let index ← operand "index" indexId
      expectType "array" op array .object
      expectType "index" op index .int
      .ok
        { text := "ELEMENT_ACCESS_" ++ element.suffix ++ "(" ++ array.text ++ ", " ++ index.text ++ ")"
          type := element.stackType
          effect := .mayTrap }
  | .arrayLength arrayId => do
    let array ← operand "array" arrayId
    expectType "array" .arraylength array .object
    .ok { text := "CHECKED_ARRAY_LENGTH(" ++ array.text ++ ")", type := .int, effect := .mayTrap }
  | .dup source => operand "dup source" source
  | leaf =>
    match list.leafValue? leaf with
    | some value => .ok value
    | none => .error (.malformed (.notExpression leaf.describe))

/-- The value of a node that may be an operand. A `dup` node pushes two values and is none. -/
def operandValue? (list : Listing) (render : Instr → Except Error Value) (instr : Instr) :
    Option Value :=
  match instr with
  | .arith _ _ _ | .arrayLoad _ _ _ | .arrayLength _ => (render instr).toOption
  | leaf => list.leafValue? leaf

def operandValue (list : Listing) (render : Instr → Except Error Value) (role : String)
    (id : NodeId) : Except Error Value :=
  match list.node? id with
  | none => .error (.malformed (.missing role id))
  | some instr =>
    match list.operandValue? render instr with
    | some value => .ok value
    | none => .error (.malformed (.notAssignable role instr.describe))

/-- Renders a node, following operands at most `fuel` steps. -/
def renderWithin (list : Listing) : Nat → Instr → Except Error Value
  | 0, instr => .error (.malformed (.notExpression instr.describe))
  | fuel + 1, instr => list.valueOfNode (list.operandValue (list.renderWithin fuel)) instr

def render (list : Listing) (instr : Instr) : Except Error Value :=
  list.renderWithin (list.nodes.size + 2) instr

def assignable? (list : Listing) (instr : Instr) : Option Value :=
  list.operandValue? list.render instr

def assignableAt? (list : Listing) (pos : Nat) : Option Value :=
  (list.at? pos).bind list.assignable?

end Listing

end BytecodeToC
