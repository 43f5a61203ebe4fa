import BytecodeToC.Opcode

/-!
Arithmetic operators, conversions and branch conditions: which opcode denotes which operator, the
kinds of its operands, and the C text that computes it from the texts of its operands.

Integral division has its own C functions, because C leaves a zero divisor and the smallest
number divided by minus one undefined. Shifts mask their count and go through the unsigned types.
-/

namespace BytecodeToC

inductive Numeric where
  | int
  | long
  | float
  | double
deriving DecidableEq, Repr

def Numeric.stackType : Numeric → StackType
  | int => .int
  | long => .long
  | float => .float
  | double => .double

def Numeric.isIntegral : Numeric → Bool
  | int | long => true
  | float | double => false

inductive Integral where
  | int
  | long
deriving DecidableEq, Repr

namespace Integral

def stackType : Integral → StackType
  | int => .int
  | long => .long

def unsignedType : Integral → String
  | int => "JAVA_UINT"
  | long => "JAVA_ULONG"

def shiftMask : Integral → String
  | int => "0x1f"
  | long => "0x3f"

end Integral

inductive Arithmetic where
  | add
  | sub
  | mul
  | div
  | rem
deriving DecidableEq, Repr

inductive Shift where
  | left
  | right
  | unsignedRight
deriving DecidableEq, Repr

inductive Bitwise where
  | and
  | or
  | xor
deriving DecidableEq, Repr

inductive BinaryOp where
  | arithmetic (op : Arithmetic) (kind : Numeric)
  | shift (op : Shift) (kind : Integral)
  | bitwise (op : Bitwise) (kind : Integral)
deriving DecidableEq, Repr

namespace BinaryOp

/-- Kinds of the left and right operand. A shift count is always an int. -/
def operandTypes : BinaryOp → StackType × StackType
  | arithmetic _ kind => (kind.stackType, kind.stackType)
  | shift _ kind => (kind.stackType, .int)
  | bitwise _ kind => (kind.stackType, kind.stackType)

def resultType (op : BinaryOp) : StackType := op.operandTypes.1

def dividesIntegers : BinaryOp → Bool
  | arithmetic .div kind | arithmetic .rem kind => kind.isIntegral
  | _ => false

def spaced (left operator right : String) : String :=
  "(" ++ left ++ " " ++ operator ++ " " ++ right ++ ")"

def applied (function left right : String) : String :=
  function ++ "(" ++ left ++ ", " ++ right ++ ")"

def text (op : BinaryOp) (left right : String) : String :=
  match op with
  | arithmetic .add _ => spaced left "+" right
  | arithmetic .sub _ => spaced left "-" right
  | arithmetic .mul _ => spaced left "*" right
  | arithmetic .div .int => applied "JAVA_IDIV" left right
  | arithmetic .div .long => applied "JAVA_LDIV" left right
  | arithmetic .div _ => spaced left "/" right
  | arithmetic .rem .int => applied "JAVA_IREM" left right
  | arithmetic .rem .long => applied "JAVA_LREM" left right
  | arithmetic .rem .float => applied "fmodf" left right
  | arithmetic .rem .double => applied "fmod" left right
  | shift .right kind => "((" ++ left ++ ") >> ((" ++ right ++ ") & " ++ kind.shiftMask ++ "))"
  | shift .left kind => throughUnsigned kind "<<"
  | shift .unsignedRight kind => throughUnsigned kind ">>"
  | bitwise .and _ => spaced left "&" right
  | bitwise .or _ => spaced left "|" right
  | bitwise .xor _ => spaced left "^" right
where
  throughUnsigned (kind : Integral) (operator : String) : String :=
    "((" ++ kind.stackType.cType ++ ")((" ++ kind.unsignedType ++ ")(" ++ left ++ ") " ++ operator ++
      " ((" ++ right ++ ") & " ++ kind.shiftMask ++ ")))"

end BinaryOp

inductive Narrow where
  | byte
  | char
  | short
deriving DecidableEq, Repr

def Narrow.cType : Narrow → String
  | byte => "JAVA_BYTE"
  | char => "JAVA_CHAR"
  | short => "JAVA_SHORT"

inductive UnaryOp where
  | negate (kind : Numeric)
  | convert (source target : Numeric)
  | narrow (target : Narrow)
deriving DecidableEq, Repr

namespace UnaryOp

def operandType : UnaryOp → StackType
  | negate kind => kind.stackType
  | convert source _ => source.stackType
  | narrow _ => .int

def resultType : UnaryOp → StackType
  | negate kind => kind.stackType
  | convert _ target => target.stackType
  | narrow _ => .int

def cast (cType operand : String) : String :=
  "((" ++ cType ++ ")(" ++ operand ++ "))"

/-- C text of the operator over its operand's text. Floating values saturate when they become
integral, which a cast does not do. -/
def text (op : UnaryOp) (operand : String) : String :=
  match op with
  | negate _ => "(-(" ++ operand ++ "))"
  | convert .float .int => "JAVA_F2I(" ++ operand ++ ")"
  | convert .float .long => "JAVA_F2L(" ++ operand ++ ")"
  | convert .double .int => "JAVA_D2I(" ++ operand ++ ")"
  | convert .double .long => "JAVA_D2L(" ++ operand ++ ")"
  | convert _ target => cast target.stackType.cType operand
  | narrow target => cast target.cType operand

end UnaryOp

inductive Comparison where
  | eq
  | ne
  | lt
  | ge
  | gt
  | le
deriving DecidableEq, Repr

def Comparison.text : Comparison → String
  | eq => "=="
  | ne => "!="
  | lt => "<"
  | ge => ">="
  | gt => ">"
  | le => "<="

inductive Condition where
  | zero (test : Comparison)
  | ints (test : Comparison)
  | references (test : Comparison)
  | null (test : Comparison)
deriving DecidableEq, Repr

namespace Opcode

def binary? : Opcode → Option BinaryOp
  | ⟨0x60⟩ => some (.arithmetic .add .int)
  | ⟨0x61⟩ => some (.arithmetic .add .long)
  | ⟨0x62⟩ => some (.arithmetic .add .float)
  | ⟨0x63⟩ => some (.arithmetic .add .double)
  | ⟨0x64⟩ => some (.arithmetic .sub .int)
  | ⟨0x65⟩ => some (.arithmetic .sub .long)
  | ⟨0x66⟩ => some (.arithmetic .sub .float)
  | ⟨0x67⟩ => some (.arithmetic .sub .double)
  | ⟨0x68⟩ => some (.arithmetic .mul .int)
  | ⟨0x69⟩ => some (.arithmetic .mul .long)
  | ⟨0x6a⟩ => some (.arithmetic .mul .float)
  | ⟨0x6b⟩ => some (.arithmetic .mul .double)
  | ⟨0x6c⟩ => some (.arithmetic .div .int)
  | ⟨0x6d⟩ => some (.arithmetic .div .long)
  | ⟨0x6e⟩ => some (.arithmetic .div .float)
  | ⟨0x6f⟩ => some (.arithmetic .div .double)
  | ⟨0x70⟩ => some (.arithmetic .rem .int)
  | ⟨0x71⟩ => some (.arithmetic .rem .long)
  | ⟨0x72⟩ => some (.arithmetic .rem .float)
  | ⟨0x73⟩ => some (.arithmetic .rem .double)
  | ⟨0x78⟩ => some (.shift .left .int)
  | ⟨0x79⟩ => some (.shift .left .long)
  | ⟨0x7a⟩ => some (.shift .right .int)
  | ⟨0x7b⟩ => some (.shift .right .long)
  | ⟨0x7c⟩ => some (.shift .unsignedRight .int)
  | ⟨0x7d⟩ => some (.shift .unsignedRight .long)
  | ⟨0x7e⟩ => some (.bitwise .and .int)
  | ⟨0x7f⟩ => some (.bitwise .and .long)
  | ⟨0x80⟩ => some (.bitwise .or .int)
  | ⟨0x81⟩ => some (.bitwise .or .long)
  | ⟨0x82⟩ => some (.bitwise .xor .int)
  | ⟨0x83⟩ => some (.bitwise .xor .long)
  | _ => none

def unary? : Opcode → Option UnaryOp
  | ⟨0x74⟩ => some (.negate .int)
  | ⟨0x75⟩ => some (.negate .long)
  | ⟨0x76⟩ => some (.negate .float)
  | ⟨0x77⟩ => some (.negate .double)
  | ⟨0x85⟩ => some (.convert .int .long)
  | ⟨0x86⟩ => some (.convert .int .float)
  | ⟨0x87⟩ => some (.convert .int .double)
  | ⟨0x88⟩ => some (.convert .long .int)
  | ⟨0x89⟩ => some (.convert .long .float)
  | ⟨0x8a⟩ => some (.convert .long .double)
  | ⟨0x8b⟩ => some (.convert .float .int)
  | ⟨0x8c⟩ => some (.convert .float .long)
  | ⟨0x8d⟩ => some (.convert .float .double)
  | ⟨0x8e⟩ => some (.convert .double .int)
  | ⟨0x8f⟩ => some (.convert .double .long)
  | ⟨0x90⟩ => some (.convert .double .float)
  | ⟨0x91⟩ => some (.narrow .byte)
  | ⟨0x92⟩ => some (.narrow .char)
  | ⟨0x93⟩ => some (.narrow .short)
  | _ => none

def condition? : Opcode → Option Condition
  | ⟨0x99⟩ => some (.zero .eq)
  | ⟨0x9a⟩ => some (.zero .ne)
  | ⟨0x9b⟩ => some (.zero .lt)
  | ⟨0x9c⟩ => some (.zero .ge)
  | ⟨0x9d⟩ => some (.zero .gt)
  | ⟨0x9e⟩ => some (.zero .le)
  | ⟨0x9f⟩ => some (.ints .eq)
  | ⟨0xa0⟩ => some (.ints .ne)
  | ⟨0xa1⟩ => some (.ints .lt)
  | ⟨0xa2⟩ => some (.ints .ge)
  | ⟨0xa3⟩ => some (.ints .gt)
  | ⟨0xa4⟩ => some (.ints .le)
  | ⟨0xa5⟩ => some (.references .eq)
  | ⟨0xa6⟩ => some (.references .ne)
  | ⟨0xc6⟩ => some (.null .eq)
  | ⟨0xc7⟩ => some (.null .ne)
  | _ => none

def dividesIntegers (op : Opcode) : Bool :=
  (op.binary?.map BinaryOp.dividesIntegers).getD false

end Opcode

end BytecodeToC
