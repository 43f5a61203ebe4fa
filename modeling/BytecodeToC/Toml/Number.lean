import BytecodeToC.Decimal

/-!
The numbers of TOML: integers of 64 bits, written in one of four bases, and decimal numbers with a
fraction or a power of ten. A number in range is accepted; its value is not kept.
-/

namespace BytecodeToC

namespace Toml

/-! Digits -/

def hexDigit? (c : Char) : Option Nat :=
  if c.isDigit then some (c.toNat - '0'.toNat)
  else if 'a' ≤ c ∧ c ≤ 'f' then some (c.toNat - 'a'.toNat + 10)
  else if 'A' ≤ c ∧ c ≤ 'F' then some (c.toNat - 'A'.toNat + 10)
  else none

def digit? (base : Nat) (c : Char) : Option Nat := (hexDigit? c).filter (· < base)

def digits? (base : Nat) : List Char → Option (List Nat)
  | [] => none
  | [c] => (digit? base c).map ([·])
  | c :: '_' :: rest => do
    let first ← digit? base c
    let others ← digits? base rest
    some (first :: others)
  | c :: rest => do
    let first ← digit? base c
    let others ← digits? base rest
    some (first :: others)

def ofDigits (base : Nat) (digits : List Nat) : Nat :=
  digits.foldl (fun value digit => value * base + digit) 0

def whole? (text : List Char) : Option (List Nat) :=
  (digits? 10 text).filter fun digits => digits.head? ≠ some 0 || digits.length = 1

/-! Integers -/

def isMachineWord (base : Nat) (text : List Char) : Bool :=
  (digits? base text).any fun digits => ofDigits base digits < Nat.pow 2 63

def isInteger (negative : Bool) (text : List Char) : Bool :=
  (whole? text).any fun digits =>
    ofDigits 10 digits < Nat.pow 2 63 || (negative && ofDigits 10 digits = Nat.pow 2 63)

/-! Decimal numbers -/

structure Scientific where
  significand : Nat
  exponent : Int
deriving DecidableEq, Repr

namespace Scientific

/-- Whether a number rounds to a finite double. Its digits are counted first, so that a power of ten
is only computed if the number lies within a factor of ten of the bound. -/
def isFinite (n : Scientific) : Bool :=
  let leading := Decimal.digitCount n.significand + n.exponent
  if n.significand = 0 ∨ leading ≤ 308 then true
  else if 310 ≤ leading then false
  else n.significand * Nat.pow 10 n.exponent.toNat
    < FloatFormat.double.overflowBound * Nat.pow 10 (-n.exponent).toNat

def fraction? : List Char → Option (List Nat)
  | '.' :: digits => digits? 10 digits
  | [] => some []
  | _ => none

def power? : List Char → Option Int
  | _ :: '-' :: digits => (digits? 10 digits).map fun digits => -(ofDigits 10 digits : Int)
  | _ :: '+' :: digits => (digits? 10 digits).map fun digits => (ofDigits 10 digits : Int)
  | _ :: digits => (digits? 10 digits).map fun digits => (ofDigits 10 digits : Int)
  | [] => some 0

def isMark (c : Char) : Bool := c = 'e' || c = 'E'

def read? (text : List Char) : Option Scientific := do
  let mantissa := text.takeWhile fun c => !isMark c
  let whole ← whole? (mantissa.takeWhile (· ≠ '.'))
  let fraction ← fraction? (mantissa.dropWhile (· ≠ '.'))
  let power ← power? (text.dropWhile fun c => !isMark c)
  some { significand := ofDigits 10 (whole ++ fraction), exponent := power - fraction.length }

end Scientific

/-- Whether a text, after its sign, is a decimal number with a fraction or a power of ten. Only a
positive number can be too large: a negative one beyond the doubles is the negative infinity. -/
def isScientific (negative : Bool) (text : List Char) : Bool :=
  (text.contains '.' || text.any Scientific.isMark)
    && (Scientific.read? text).any fun n => negative || n.isFinite

/-! Numbers -/

def isUnsigned (negative : Bool) (text : List Char) : Bool :=
  text = ['i', 'n', 'f'] || text = ['n', 'a', 'n']
    || isInteger negative text || isScientific negative text

def isNumber : List Char → Bool
  | '0' :: 'x' :: digits => isMachineWord 16 digits
  | '0' :: 'o' :: digits => isMachineWord 8 digits
  | '0' :: 'b' :: digits => isMachineWord 2 digits
  | '-' :: text => isUnsigned true text
  | '+' :: text => isUnsigned false text
  | text => isUnsigned false text

end Toml

end BytecodeToC
