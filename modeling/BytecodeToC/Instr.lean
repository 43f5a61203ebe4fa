import BytecodeToC.Literal
import BytecodeToC.Operator
import BytecodeToC.Program

/-!
Instructions. Elementary ones come from the records of a method; expression nodes stand for an
operator whose operands are other nodes of the same arena.
-/

namespace BytecodeToC

/-- Access to a field. A reader of the current object's field may skip the operand stack. -/
structure FieldAccess where
  op : Opcode
  owner : String
  name : String
  descriptor : String
  useThis : Bool
deriving DecidableEq, Repr

namespace FieldAccess

def isStatic (access : FieldAccess) : Bool := access.op = .getstatic || access.op = .putstatic

def type (access : FieldAccess) : Except Error FieldType := FieldType.parse access.descriptor

end FieldAccess

inductive Dispatch where
  | static
  | special
  | virtual
  | interface
deriving DecidableEq, Repr

def Dispatch.opcode : Dispatch → Opcode
  | static => .invokestatic
  | special => .invokespecial
  | virtual => .invokevirtual
  | interface => .invokeinterface

inductive Receiver where
  | stack
  | literal (text : String)
  | currentObject
deriving DecidableEq, Repr

structure Call where
  dispatch : Dispatch
  owner : String
  name : String
  descriptor : String
  /-- C texts that replace arguments; empty if every argument is popped. -/
  literalArgs : List (Option String)
  receiver : Receiver
  discardResult : Bool
deriving DecidableEq, Repr

structure Region where
  seq : Nat
  start : Label
  finish : Label
  handler : Label
  catchType : Option String
deriving DecidableEq, Repr

inductive Instr where
  | basic (op : Opcode) (immediate : Option Int32)
  | localVar (op : Opcode) (slot : Slot) (delta : Option Int32)
  | namedLocal (op : Opcode) (slot : Slot) (name : String) (tag : Char) (delta : Option Int32)
  | field (access : FieldAccess)
  | invoke (call : Call)
  | jump (op : Opcode) (target : Label) (condition : Option String)
  | label (id : Label)
  | switch (default : Option Label) (keys : List Int32) (targets : List Label)
  | tryRegion (region : Region)
  | type (op : Opcode) (typeName : String)
  | multiArray (descriptor : String) (dimensions : UInt8)
  | constant (value : Constant) (poolOffset : Option Nat)
  | arith (op : Opcode) (lhs : NodeId) (rhs : Option NodeId)
  | arrayLoad (op : Opcode) (array index : NodeId)
  | arrayLength (array : NodeId)
  | dup (source : NodeId)
deriving DecidableEq, Repr

namespace Instr

def opcode? : Instr → Option Opcode
  | basic op _ => some op
  | localVar op _ _ => some op
  | namedLocal op _ _ _ _ => some op
  | field access => some access.op
  | invoke call => some call.dispatch.opcode
  | jump op _ _ => some op
  | switch _ _ _ => some .lookupswitch
  | type op _ => some op
  | multiArray _ _ => some .multianewarray
  | constant _ _ => some .ldc
  | label _ | tryRegion _ | arith _ _ _ | arrayLoad _ _ _ | arrayLength _ | dup _ => none

def describe : Instr → String
  | basic op _ => op.mnemonic
  | localVar op slot _ => op.mnemonic ++ " " ++ toString slot.toNat
  | namedLocal op _ name _ _ => op.mnemonic ++ " " ++ name
  | field access => access.op.mnemonic ++ " " ++ access.owner ++ "." ++ access.name
  | invoke call =>
    call.dispatch.opcode.mnemonic ++ " " ++ call.owner ++ "." ++ call.name ++ call.descriptor
  | jump op target _ => op.mnemonic ++ " " ++ labelName target
  | label id => labelName id
  | switch _ _ _ => Opcode.lookupswitch.mnemonic
  | tryRegion region => "try #" ++ toString region.seq
  | type op typeName => op.mnemonic ++ " " ++ typeName
  | multiArray descriptor dimensions =>
    "multianewarray " ++ descriptor ++ " " ++ toString dimensions.toNat
  | constant _ _ => Opcode.ldc.mnemonic
  | arith op _ _ | arrayLoad op _ _ => "(" ++ op.mnemonic ++ ")"
  | arrayLength _ => "(arraylength)"
  | dup _ => "(dup)"

def typeDependencies : FieldType → List String
  | .primitive _ => []
  | .reference name => [Symbol.ofClass name]
  | .array element => typeDependencies element

def nameDependencies (typeName : String) : List String :=
  ((TypeName.elementClass? typeName).map Symbol.ofClass).toList

def dependencies : Instr → List String
  | field access => Symbol.ofClass access.owner :: nameDependencies access.descriptor
  | invoke call =>
    let owner := if TypeName.isArray call.owner then [] else [Symbol.ofClass call.owner]
    let types := match MethodType.ofDescriptor? call.descriptor with
      | some signature => (signature.params ++ signature.result.toList).flatMap typeDependencies
      | none => []
    owner ++ types
  | type _ typeName => nameDependencies typeName
  | multiArray descriptor _ => nameDependencies descriptor
  | constant (.type name) _ => nameDependencies name
  | constant (.string _) _ => [Symbol.ofClass "java/lang/String"]
  | tryRegion region => (region.catchType.map Symbol.ofClass).toList
  | _ => []

def jumpTargets : Instr → List Label
  | jump _ target _ => [target]
  | switch default _ targets => targets ++ default.toList
  | _ => []

end Instr

/-! Names of local variables -/

namespace LocalName

def keywords : List String :=
  ["auto", "break", "case", "char", "const", "continue", "default", "do", "double", "else", "enum",
   "extern", "float", "for", "goto", "if", "inline", "int", "long", "register", "restrict",
   "return", "short", "signed", "sizeof", "static", "struct", "switch", "typedef", "union",
   "unsigned", "void", "volatile", "while"]

def generated (slot : Slot) (type : StackType) : String :=
  String.singleton type.localLetter ++ "locals_" ++ toString slot.toNat ++ "_"

/-- Whether a name could be a generated one: any letter, `locals_`, digits and `_`. -/
def looksGenerated (name : List Char) : Bool :=
  match name with
  | _ :: 'l' :: 'o' :: 'c' :: 'a' :: 'l' :: 's' :: '_' :: rest =>
    rest.getLast? = some '_' && rest.dropLast ≠ [] && rest.dropLast.all Char.isDigit
  | _ => false

def isWordChar (c : Char) : Bool := c.isAlphanum || c = '_'

/-- Whether a name can be declared in C beside the names the lowering makes up itself. -/
def isUsable (name : String) : Bool :=
  match name.toList with
  | [] => false
  | first :: rest =>
    (first.isAlpha || first = '_') && rest.all isWordChar
      && !(first = '_' && rest.head? = some '_')
      && name ≠ "threadStateData"
      && !keywords.contains name
      && !looksGenerated (first :: rest)

def tagFits : StackType → Char → Bool
  | .int, tag => ['I', 'Z', 'B', 'C', 'S'].contains tag
  | .long, tag => tag = 'J'
  | .float, tag => tag = 'F'
  | .double, tag => tag = 'D'
  | .object, tag => tag = 'L' || tag = '['

def defaultTag : StackType → Char
  | .int => 'I'
  | .long => 'J'
  | .float => 'F'
  | .double => 'D'
  | .object => 'L'

def check (op : Opcode) (slot : Slot) (name : String) (tag : Char) : Except Error Unit :=
  if !(op.localType?.map (tagFits · tag)).getD false then
    .error (.unsupported (.localTag name slot tag op))
  else if !isUsable name then
    .error (.unsupported (.localName name))
  else
    .ok ()

end LocalName

end BytecodeToC
