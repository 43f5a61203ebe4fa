import BytecodeToC.Decimal

/-!
C literals for integers, floating-point values and strings.
-/

namespace BytecodeToC

namespace Literal

/-- The smallest int has no literal of its own: its magnitude does not fit the type. -/
def int (value : Int32) : String :=
  if value = Int32.minValue then "(-2147483647 - 1)" else toString value.toInt

def long (value : Int64) : String :=
  if value = Int64.minValue then "(-9223372036854775807LL - 1)" else toString value.toInt ++ "LL"

def floatLayout : Decimal.Layout := { least := -4, greatest := 15, tie := .upper }

def float (bits : UInt32) : String :=
  match FloatFormat.single.decode bits.toNat with
  | .nan => "JAVA_FLOAT_NAN"
  | .infinite false => "JAVA_FLOAT_POSITIVE_INFINITY"
  | .infinite true => "JAVA_FLOAT_NEGATIVE_INFINITY"
  | .finite negative mantissa exponent =>
    Decimal.ofFinite floatLayout .single negative mantissa exponent ++ "f"

def double (bits : UInt64) : String :=
  match FloatFormat.double.decode bits.toNat with
  | .nan => "JAVA_DOUBLE_NAN"
  | .infinite false => "JAVA_DOUBLE_POSITIVE_INFINITY"
  | .infinite true => "JAVA_DOUBLE_NEGATIVE_INFINITY"
  | .finite negative mantissa exponent =>
    Decimal.ofFinite floatLayout .double negative mantissa exponent

def octalDigit (value : Nat) : Char := Char.ofNat ('0'.toNat + value % 8)

/-- An octal escape always has three digits, so that no following digit joins it. A question mark is
escaped so that two of them never start a trigraph. -/
def escapeByte (byte : UInt8) : List Char :=
  let c := Char.ofNat byte.toNat
  match c with
  | '"' => ['\\', '"']
  | '\\' => ['\\', '\\']
  | '\n' => ['\\', 'n']
  | '\r' => ['\\', 'r']
  | '\t' => ['\\', 't']
  | '?' => ['\\', '?']
  | c =>
    if 0x20 ≤ byte ∧ byte ≤ 0x7e then [c]
    else
      ['\\', octalDigit (byte.toNat / 64), octalDigit (byte.toNat / 8), octalDigit byte.toNat]

def string (text : String) : String :=
  "\"" ++ String.ofList (text.toUTF8.toList.flatMap escapeByte) ++ "\""

end Literal

end BytecodeToC
