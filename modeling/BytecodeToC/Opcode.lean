import BytecodeToC.StackType

/-!
Opcodes of the virtual machine: the byte, its mnemonic, and the families of instructions that the
lowering treats alike. The short forms of loads and stores (`iload_2`) have no byte of their own
here; `slotForm?` reads them as the general opcode and its slot.
-/

namespace BytecodeToC

abbrev Slot := UInt16

structure Opcode where
  byte : UInt8
deriving DecidableEq, Repr, Inhabited

namespace Opcode

@[match_pattern] def nop : Opcode := ⟨0x00⟩
@[match_pattern] def aconstNull : Opcode := ⟨0x01⟩
@[match_pattern] def iconstM1 : Opcode := ⟨0x02⟩
@[match_pattern] def iconst0 : Opcode := ⟨0x03⟩
@[match_pattern] def iconst1 : Opcode := ⟨0x04⟩
@[match_pattern] def iconst2 : Opcode := ⟨0x05⟩
@[match_pattern] def iconst3 : Opcode := ⟨0x06⟩
@[match_pattern] def iconst4 : Opcode := ⟨0x07⟩
@[match_pattern] def iconst5 : Opcode := ⟨0x08⟩
@[match_pattern] def lconst0 : Opcode := ⟨0x09⟩
@[match_pattern] def lconst1 : Opcode := ⟨0x0a⟩
@[match_pattern] def fconst0 : Opcode := ⟨0x0b⟩
@[match_pattern] def fconst1 : Opcode := ⟨0x0c⟩
@[match_pattern] def fconst2 : Opcode := ⟨0x0d⟩
@[match_pattern] def dconst0 : Opcode := ⟨0x0e⟩
@[match_pattern] def dconst1 : Opcode := ⟨0x0f⟩
@[match_pattern] def bipush : Opcode := ⟨0x10⟩
@[match_pattern] def sipush : Opcode := ⟨0x11⟩
@[match_pattern] def ldc : Opcode := ⟨0x12⟩
@[match_pattern] def iload : Opcode := ⟨0x15⟩
@[match_pattern] def lload : Opcode := ⟨0x16⟩
@[match_pattern] def fload : Opcode := ⟨0x17⟩
@[match_pattern] def dload : Opcode := ⟨0x18⟩
@[match_pattern] def aload : Opcode := ⟨0x19⟩
@[match_pattern] def istore : Opcode := ⟨0x36⟩
@[match_pattern] def lstore : Opcode := ⟨0x37⟩
@[match_pattern] def fstore : Opcode := ⟨0x38⟩
@[match_pattern] def dstore : Opcode := ⟨0x39⟩
@[match_pattern] def astore : Opcode := ⟨0x3a⟩
@[match_pattern] def pop : Opcode := ⟨0x57⟩
@[match_pattern] def pop2 : Opcode := ⟨0x58⟩
@[match_pattern] def dup : Opcode := ⟨0x59⟩
@[match_pattern] def dupX1 : Opcode := ⟨0x5a⟩
@[match_pattern] def dupX2 : Opcode := ⟨0x5b⟩
@[match_pattern] def dup2 : Opcode := ⟨0x5c⟩
@[match_pattern] def dup2X1 : Opcode := ⟨0x5d⟩
@[match_pattern] def dup2X2 : Opcode := ⟨0x5e⟩
@[match_pattern] def swap : Opcode := ⟨0x5f⟩
@[match_pattern] def iinc : Opcode := ⟨0x84⟩
@[match_pattern] def lcmp : Opcode := ⟨0x94⟩
@[match_pattern] def fcmpl : Opcode := ⟨0x95⟩
@[match_pattern] def fcmpg : Opcode := ⟨0x96⟩
@[match_pattern] def dcmpl : Opcode := ⟨0x97⟩
@[match_pattern] def dcmpg : Opcode := ⟨0x98⟩
@[match_pattern] def goto : Opcode := ⟨0xa7⟩
@[match_pattern] def jsr : Opcode := ⟨0xa8⟩
@[match_pattern] def ret : Opcode := ⟨0xa9⟩
@[match_pattern] def lookupswitch : Opcode := ⟨0xab⟩
@[match_pattern] def ireturn : Opcode := ⟨0xac⟩
@[match_pattern] def lreturn : Opcode := ⟨0xad⟩
@[match_pattern] def freturn : Opcode := ⟨0xae⟩
@[match_pattern] def dreturn : Opcode := ⟨0xaf⟩
@[match_pattern] def areturn : Opcode := ⟨0xb0⟩
@[match_pattern] def voidReturn : Opcode := ⟨0xb1⟩
@[match_pattern] def getstatic : Opcode := ⟨0xb2⟩
@[match_pattern] def putstatic : Opcode := ⟨0xb3⟩
@[match_pattern] def getfield : Opcode := ⟨0xb4⟩
@[match_pattern] def putfield : Opcode := ⟨0xb5⟩
@[match_pattern] def invokevirtual : Opcode := ⟨0xb6⟩
@[match_pattern] def invokespecial : Opcode := ⟨0xb7⟩
@[match_pattern] def invokestatic : Opcode := ⟨0xb8⟩
@[match_pattern] def invokeinterface : Opcode := ⟨0xb9⟩
@[match_pattern] def new : Opcode := ⟨0xbb⟩
@[match_pattern] def newarray : Opcode := ⟨0xbc⟩
@[match_pattern] def anewarray : Opcode := ⟨0xbd⟩
@[match_pattern] def arraylength : Opcode := ⟨0xbe⟩
@[match_pattern] def athrow : Opcode := ⟨0xbf⟩
@[match_pattern] def checkcast : Opcode := ⟨0xc0⟩
@[match_pattern] def instanceof : Opcode := ⟨0xc1⟩
@[match_pattern] def monitorenter : Opcode := ⟨0xc2⟩
@[match_pattern] def monitorexit : Opcode := ⟨0xc3⟩
@[match_pattern] def multianewarray : Opcode := ⟨0xc5⟩
@[match_pattern] def gotoW : Opcode := ⟨0xc8⟩
@[match_pattern] def jsrW : Opcode := ⟨0xc9⟩

def mnemonicRun (first : Nat) (names : List String) : List (Opcode × String) :=
  names.zipIdx.map fun (name, offset) => (⟨(first + offset).toUInt8⟩, name)

/-- Every opcode that has a mnemonic, by byte. The gaps are the short forms of loads and stores. -/
def mnemonics : List (Opcode × String) :=
  mnemonicRun 0x00
    ["nop", "aconst_null", "iconst_m1", "iconst_0", "iconst_1", "iconst_2", "iconst_3", "iconst_4",
     "iconst_5", "lconst_0", "lconst_1", "fconst_0", "fconst_1", "fconst_2", "dconst_0", "dconst_1",
     "bipush", "sipush", "ldc", "ldc_w", "ldc2_w", "iload", "lload", "fload", "dload", "aload"] ++
  mnemonicRun 0x2e
    ["iaload", "laload", "faload", "daload", "aaload", "baload", "caload", "saload",
     "istore", "lstore", "fstore", "dstore", "astore"] ++
  mnemonicRun 0x4f
    ["iastore", "lastore", "fastore", "dastore", "aastore", "bastore", "castore", "sastore",
     "pop", "pop2", "dup", "dup_x1", "dup_x2", "dup2", "dup2_x1", "dup2_x2", "swap",
     "iadd", "ladd", "fadd", "dadd", "isub", "lsub", "fsub", "dsub", "imul", "lmul", "fmul", "dmul",
     "idiv", "ldiv", "fdiv", "ddiv", "irem", "lrem", "frem", "drem", "ineg", "lneg", "fneg", "dneg",
     "ishl", "lshl", "ishr", "lshr", "iushr", "lushr", "iand", "land", "ior", "lor", "ixor", "lxor",
     "iinc", "i2l", "i2f", "i2d", "l2i", "l2f", "l2d", "f2i", "f2l", "f2d", "d2i", "d2l", "d2f",
     "i2b", "i2c", "i2s", "lcmp", "fcmpl", "fcmpg", "dcmpl", "dcmpg",
     "ifeq", "ifne", "iflt", "ifge", "ifgt", "ifle",
     "if_icmpeq", "if_icmpne", "if_icmplt", "if_icmpge", "if_icmpgt", "if_icmple",
     "if_acmpeq", "if_acmpne", "goto", "jsr", "ret", "tableswitch", "lookupswitch",
     "ireturn", "lreturn", "freturn", "dreturn", "areturn", "return",
     "getstatic", "putstatic", "getfield", "putfield",
     "invokevirtual", "invokespecial", "invokestatic", "invokeinterface", "invokedynamic",
     "new", "newarray", "anewarray", "arraylength", "athrow", "checkcast", "instanceof",
     "monitorenter", "monitorexit", "wide", "multianewarray", "ifnull", "ifnonnull",
     "goto_w", "jsr_w"]

def mnemonic (op : Opcode) : String :=
  ((mnemonics.find? fun entry => entry.1 = op).map Prod.snd).getD "<unknown>"

def ofMnemonic? (name : String) : Option Opcode :=
  (mnemonics.find? fun entry => entry.2 = name).map Prod.fst

def splitAtLast (separator : Char) (text : List Char) : Option (List Char × List Char) :=
  match text with
  | [] => none
  | c :: rest =>
    match splitAtLast separator rest with
    | some (before, after) => some (c :: before, after)
    | none => if c = separator then some ([], rest) else none

/-- A decimal number: at most one `+`, then digits, leading zeros included. -/
def decimal? (text : List Char) : Option Nat :=
  let digits := match text with
    | '+' :: rest => rest
    | _ => text
  if digits ≠ [] ∧ digits.all Char.isDigit then
    some (digits.foldl (fun value digit => value * 10 + (digit.toNat - '0'.toNat)) 0)
  else
    none

def slotFormBase? : String → Option Opcode
  | "iload" => some iload
  | "lload" => some lload
  | "fload" => some fload
  | "dload" => some dload
  | "aload" => some aload
  | "istore" => some istore
  | "lstore" => some lstore
  | "fstore" => some fstore
  | "dstore" => some dstore
  | "astore" => some astore
  | _ => none

def slotForm? (name : String) : Option (Opcode × Slot) := do
  let (base, slotText) ← splitAtLast '_' name.toList
  let slot ← decimal? slotText
  if slot ≤ 3 then
    let op ← slotFormBase? (String.ofList base)
    some (op, slot.toUInt16)
  else
    none

def isBetween (op first last : Opcode) : Bool :=
  first.byte ≤ op.byte && op.byte ≤ last.byte

def isLoad (op : Opcode) : Bool := op.isBetween iload aload

def isStore (op : Opcode) : Bool := op.isBetween istore astore

def isArrayLoad (op : Opcode) : Bool := op.isBetween ⟨0x2e⟩ ⟨0x35⟩

def isArrayStore (op : Opcode) : Bool := op.isBetween ⟨0x4f⟩ ⟨0x56⟩

def localType? : Opcode → Option StackType
  | iload | istore | iinc => some .int
  | lload | lstore => some .long
  | fload | fstore => some .float
  | dload | dstore => some .double
  | aload | astore => some .object
  | _ => none

def elementType? : Opcode → Option ElementType
  | ⟨0x2e⟩ | ⟨0x4f⟩ => some .int
  | ⟨0x2f⟩ | ⟨0x50⟩ => some .long
  | ⟨0x30⟩ | ⟨0x51⟩ => some .float
  | ⟨0x31⟩ | ⟨0x52⟩ => some .double
  | ⟨0x32⟩ | ⟨0x53⟩ => some .object
  | ⟨0x33⟩ | ⟨0x54⟩ => some .byte
  | ⟨0x34⟩ | ⟨0x55⟩ => some .char
  | ⟨0x35⟩ | ⟨0x56⟩ => some .short
  | _ => none

def returnType? : Opcode → Option StackType
  | ireturn => some .int
  | lreturn => some .long
  | freturn => some .float
  | dreturn => some .double
  | areturn => some .object
  | _ => none

end Opcode

end BytecodeToC
