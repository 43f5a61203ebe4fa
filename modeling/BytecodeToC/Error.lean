import BytecodeToC.Opcode

/-!
Why a program cannot be lowered. Each kind of failure lists its causes as data; the wording stands
in the `message` functions and nowhere else. An error inside a method is wrapped once with the
method's name, and wrapping it again changes nothing, so the innermost name is the one reported.
-/

namespace BytecodeToC

abbrev Label := UInt32

abbrev NodeId := Nat

def labelName (label : Label) : String := "label_" ++ toString label.toNat

def quoted (text : String) : String := "'" ++ text ++ "'"

inductive Unsupported where
  | fieldDescriptor (text : String)
  | methodDescriptor (text : String)
  | elementType (text : String)
  | unknownOpcode (name : String)
  | missingOperand (name : String)
  | missingSlot (name : String)
  | notLocalInstruction (name : String)
  | notFieldInstruction (name : String)
  | notInvokeInstruction (name : String)
  | notTypeInstruction (name : String)
  | typeOperand (op : Opcode) (typeName : String)
  | dynamicCall (name descriptor : String)
  | twoReceivers (owner name : String)
  | switchKeyOverflow
  | switchWithoutKeys
  | arrayElement (name : String)
  | localTag (name : String) (slot : Slot) (tag : Char) (op : Opcode)
  | localName (name : String)
  | slotNamedTwice (slot : Slot) (first second : String)
  | nameBoundTwice (name : String)
  | labelDefinedTwice (label : Label)
  | missingLabel (label : Label)
  | subroutineCall
  | subroutineReturn
  | notBranch (op : Opcode)
  | notFieldAccess (op : Opcode)
  | notTypeOperation (op : Opcode)
  | notLocalAccess (op : Opcode)
  | notLowered (op : Opcode)
  | switchArity (keys targets : Nat)
  | missingDelta (slot : Slot)
  | methodHandle (handle : String)
  | literalOutsidePool
  | literalArguments (method : String) (given expected : Nat)
  | staticReceiver (owner name : String)
  | currentObject (use method : String)
  | arrayCode (code : Option Int32)
  | newOfArray (typeName : String)
  | tooManyDimensions (descriptor : String) (limit : Nat)
  | dimensionCount (descriptor : String) (count : Nat)
  | other (text : String)
deriving DecidableEq, Repr

namespace Unsupported

def codeText : Option Int32 → String
  | none => "None"
  | some code => "Some(" ++ toString code.toInt ++ ")"

def message : Unsupported → String
  | fieldDescriptor text => "malformed field descriptor " ++ quoted text
  | methodDescriptor text => "malformed method descriptor " ++ quoted text
  | elementType text => "no element type in " ++ quoted text
  | unknownOpcode name => "unknown opcode " ++ quoted name
  | missingOperand name => name ++ " without an operand"
  | missingSlot name => name ++ " without a slot"
  | notLocalInstruction name => quoted name ++ " is not a local variable instruction"
  | notFieldInstruction name => quoted name ++ " is not a field instruction"
  | notInvokeInstruction name => quoted name ++ " is not an invoke instruction"
  | notTypeInstruction name => quoted name ++ " is not a type instruction"
  | typeOperand op typeName =>
    op.mnemonic ++ " operand " ++ quoted typeName ++ " is not a " ++
      (if op = .new then "class name" else "class name or array descriptor")
  | dynamicCall name descriptor => "invokedynamic call site " ++ quoted (name ++ descriptor)
  | twoReceivers owner name =>
    "call to " ++ owner ++ "." ++ name ++ " has both a literal receiver and self_call"
  | switchKeyOverflow => "tableswitch keys overflow"
  | switchWithoutKeys => "switch targets without keys or low bound"
  | arrayElement name => "newarray of " ++ quoted name
  | localTag name slot tag op =>
    "local " ++ quoted name ++ " in slot " ++ toString slot.toNat ++ " has type " ++
      quoted (String.singleton tag) ++ " but is accessed with " ++ op.mnemonic
  | localName name => "local name " ++ quoted name ++ " is not a usable C identifier"
  | slotNamedTwice slot first second =>
    "slot " ++ toString slot.toNat ++ " is named both " ++ quoted first ++ " and " ++ quoted second
  | nameBoundTwice name => "local name " ++ quoted name ++ " is bound to more than one slot"
  | labelDefinedTwice label => labelName label ++ " is defined twice"
  | missingLabel label => "jump target " ++ labelName label ++ " does not exist in this method"
  | subroutineCall => "jsr (subroutines are not supported)"
  | subroutineReturn => "ret (subroutines are not supported)"
  | notBranch op => op.mnemonic ++ " is not a branch"
  | notFieldAccess op => op.mnemonic ++ " is not a field access"
  | notTypeOperation op => op.mnemonic ++ " is not a type instruction"
  | notLocalAccess op => op.mnemonic ++ " is not a local access"
  | notLowered op => "opcode " ++ op.mnemonic ++ " cannot be lowered here"
  | switchArity keys targets =>
    "switch has " ++ toString keys ++ " keys but " ++ toString targets ++ " targets"
  | missingDelta slot => "iinc on slot " ++ toString slot.toNat ++ " has no delta"
  | methodHandle handle => "method handle constant " ++ quoted handle
  | literalOutsidePool => "literal was not registered in the constant pool"
  | literalArguments method given expected =>
    method ++ " has " ++ toString given ++ " literal argument slots for " ++ toString expected ++
      " parameters"
  | staticReceiver owner name =>
    "static call " ++ owner ++ "." ++ name ++ " with a receiver override"
  | currentObject use method => use ++ " uses the current object inside static method " ++ method
  | arrayCode code => "newarray with element code " ++ codeText code
  | newOfArray typeName => "new of array type " ++ quoted typeName
  | tooManyDimensions descriptor limit =>
    "array " ++ quoted descriptor ++ " has more than " ++ toString limit ++ " dimensions"
  | dimensionCount descriptor count =>
    "multianewarray of " ++ quoted descriptor ++ " with " ++ toString count ++ " dimension sizes"
  | other text => text

end Unsupported

inductive Malformed where
  | missing (role : String) (id : NodeId)
  | notAssignable (role description : String)
  | wrongType (role : String) (op : Opcode) (actual expected : StackType)
  | notBinary (op : Opcode)
  | notUnary (op : Opcode)
  | notArrayLoad (op : Opcode)
  | notExpression (description : String)
  | other (text : String)
deriving DecidableEq, Repr

def Malformed.message : Malformed → String
  | missing role id => role ++ " #" ++ toString id ++ " is missing"
  | notAssignable role description => role ++ " " ++ quoted description ++ " is not assignable"
  | wrongType role op actual expected =>
    role ++ " of " ++ op.mnemonic ++ " is " ++ actual.title ++ ", expected " ++ expected.title
  | notBinary op => op.mnemonic ++ " is not a binary operator"
  | notUnary op => op.mnemonic ++ " is not a unary operator"
  | notArrayLoad op => op.mnemonic ++ " is not an array load"
  | notExpression description => quoted description ++ " is not an expression"
  | other text => text

inductive Unbalanced where
  | tooManyCloses (label : Label)
  | neverOpened (label : Label)
  | outOfOrder (label : Label) (innermost : Nat)
  | stillOpen (region : Nat)
  | other (text : String)
deriving DecidableEq, Repr

def Unbalanced.message : Unbalanced → String
  | tooManyCloses label => labelName label ++ " closes more try regions than are open"
  | neverOpened label => labelName label ++ " closes a try region that was never opened"
  | outOfOrder label innermost =>
    labelName label ++ " closes try regions out of nesting order (region #" ++ toString innermost ++
      " is innermost)"
  | stillOpen region =>
    "try region #" ++ toString region ++ " is still open at the end of the method"
  | other text => text

inductive BadConfig where
  | unreadable (reason : String)
  | other (text : String)
deriving DecidableEq, Repr

def BadConfig.message : BadConfig → String
  | unreadable reason => "cannot read config: " ++ reason
  | other text => text

inductive BadFile where
  | unreadableInput (reason : String)
  | unwritableOutput (reason : String)
  | other (text : String)
deriving DecidableEq, Repr

def BadFile.message : BadFile → String
  | unreadableInput reason => "cannot read input: " ++ reason
  | unwritableOutput reason => "cannot write output: " ++ reason
  | other text => text

inductive Error where
  | unsupported (cause : Unsupported)
  | malformed (cause : Malformed)
  | unbalanced (cause : Unbalanced)
  | input (text : String)
  | config (cause : BadConfig) (path : String)
  | file (cause : BadFile) (path : String)
  | inMethod (method : String) (cause : Error)
deriving DecidableEq, Repr

namespace Error

def message : Error → String
  | unsupported cause => "Unsupported input: " ++ cause.message
  | malformed cause => "Malformed reduction: " ++ cause.message
  | unbalanced cause => "Unbalanced try region: " ++ cause.message
  | input text => "Input error: " ++ text
  | config cause _ => "Config error: " ++ cause.message
  | file cause _ => "I/O error: " ++ cause.message
  | inMethod method cause => "in " ++ method ++ ": " ++ cause.message

/-- Names the method an error arose in. An error that names one already keeps it. -/
def within (method : String) : Error → Error
  | inMethod inner cause => inMethod inner cause
  | error => inMethod method error

def root : Error → Error
  | inMethod _ cause => cause.root
  | error => error

theorem within_within (outer inner : String) (error : Error) :
    (error.within inner).within outer = error.within inner := by
  cases error <;> rfl

@[simp] theorem root_within (method : String) (error : Error) :
    (error.within method).root = error.root := by
  cases error <;> rfl

end Error

end BytecodeToC
