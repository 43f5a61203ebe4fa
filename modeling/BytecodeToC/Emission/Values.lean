import BytecodeToC.Emission.Context

/-!
Lowering of constants, local variables, arithmetic, comparisons and expression nodes.
-/

namespace BytecodeToC

namespace Emission

open C

/-- Loads push a local, stores pop into it. A stored object hands its reference to the local, whose
old one is released. -/
def localAccess (list : Listing) (op : Opcode) (slot : Slot) (delta : Option Int32) :
    Except Error (List Item) :=
  if op = .ret then .error (.unsupported .subroutineReturn)
  else
    match op.localType? with
    | none => .error (.unsupported (.notLocalAccess op))
    | some type =>
      let name := list.localName slot type
      if op = .iinc then
        match delta with
        | some delta => .ok [.stmt (.increment name delta)]
        | none => .error (.unsupported (.missingDelta slot))
      else if op.isLoad then .ok [.stmt (.push type name)]
      else if type = .object then
        .ok [.block [.pop .object "__value", .release name, .assign name "__value"]]
      else .ok [.stmt (.popInto type name)]

def constantLoad (constant : Constant) (poolOffset : Option Nat) : Except Error (List Item) :=
  match constant with
  | .methodHandle handle => .error (.unsupported (.methodHandle handle))
  | _ =>
    match Instr.constantValue? constant poolOffset with
    | some (text, type) => .ok [.stmt (.push type text)]
    | none => .error (.unsupported .literalOutsidePool)

def binary (op : BinaryOp) : List Item :=
  [.block
    [.pop op.operandTypes.2 "__b", .pop op.operandTypes.1 "__a",
     .push op.resultType (op.text "__a" "__b")]]

def unary (op : UnaryOp) : List Item :=
  [.block [.pop op.operandType "__a", .push op.resultType (op.text "__a")]]

/-- Text of a three-way comparison. `unordered` is the answer if an operand is not a number. -/
def comparisonText : Option String → String
  | none => "(__a > __b) - (__a < __b)"
  | some unordered => "__a > __b ? 1 : (__a == __b ? 0 : (__a < __b ? -1 : " ++ unordered ++ "))"

def comparison (type : StackType) (unordered : Option String) : List Item :=
  [.block [.pop type "__b", .pop type "__a", .push .int (comparisonText unordered)]]

def expression (list : Listing) (instr : Instr) : Except Error (List Item) :=
  (list.render instr).map fun value =>
    let push := Item.stmt (.push value.type value.text)
    match instr with
    | .dup _ => [push, push]
    | _ => [push]

end Emission

end BytecodeToC
