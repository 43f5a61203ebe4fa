/-!
Binary floating-point values as exact numbers, and the shortest decimal that reads back as one.

A finite value is `mantissa · 2 ^ exponent`. Around it lies the interval of reals that round to it,
closed exactly if the mantissa is even. For one digit, two digits, and so on, the two neighbours of
the value on that decimal grid are tried against the interval; the first grid with a hit gives the
digits. Of two hits the nearer one is taken; what happens if they are equally near is a decision of
the format that is written. Everything is computed in natural numbers.
-/

namespace BytecodeToC

structure FloatFormat where
  fractionBits : Nat
  exponentBits : Nat
deriving DecidableEq, Repr

inductive FloatValue where
  | nan
  | infinite (negative : Bool)
  | finite (negative : Bool) (mantissa : Nat) (exponent : Int)
deriving DecidableEq, Repr

namespace FloatFormat

def single : FloatFormat := ⟨23, 8⟩

def double : FloatFormat := ⟨52, 11⟩

def hiddenBit (format : FloatFormat) : Nat := Nat.pow 2 format.fractionBits

def bias (format : FloatFormat) : Nat := Nat.pow 2 (format.exponentBits - 1) - 1

/-- The least real that rounds to infinity: half a step above the greatest finite value. -/
def overflowBound (format : FloatFormat) : Nat :=
  Nat.pow 2 (format.bias + 1) - Nat.pow 2 (format.bias - format.fractionBits - 1)

def decode (format : FloatFormat) (bits : Nat) : FloatValue :=
  let fraction := bits % format.hiddenBit
  let biased := bits / format.hiddenBit % Nat.pow 2 format.exponentBits
  let negative := bits / format.hiddenBit / Nat.pow 2 format.exponentBits % 2 = 1
  if biased = Nat.pow 2 format.exponentBits - 1 then
    if fraction = 0 then .infinite negative else .nan
  else if biased = 0 then
    .finite negative fraction (1 - format.bias - format.fractionBits)
  else
    .finite negative (fraction + format.hiddenBit) (biased - format.bias - format.fractionBits)

end FloatFormat

/-- A positive decimal: the digits of `digits` with a point after the first, times a power of ten. -/
structure Decimal where
  digits : Nat
  exponent : Int
deriving DecidableEq, Repr

namespace Decimal

def digitCount (n : Nat) : Nat := (Nat.toDigits 10 n).length

structure Rounding where
  value : Nat
  low : Nat
  high : Nat
  denominator : Nat
  closed : Bool

/-- The interval of reals that round to `mantissa · 2 ^ exponent`. Below the smallest mantissa of a
binade the spacing halves. -/
def Rounding.around (format : FloatFormat) (mantissa : Nat) (exponent : Int) : Rounding :=
  let scale := Nat.pow 2 (exponent - 2).toNat
  let below := if mantissa = format.hiddenBit then 1 else 2
  { value := 4 * mantissa * scale
    low := (4 * mantissa - below) * scale
    high := (4 * mantissa + 2) * scale
    denominator := Nat.pow 2 (2 - exponent).toNat
    closed := mantissa % 2 = 0 }

def leadingExponent (value denominator : Nat) : Int :=
  if denominator ≤ value then
    digitCount (value / denominator) - 1
  else
    let quotient := (value + denominator - 1) / value
    Int.negOfNat (digitCount (quotient - 1))

inductive Tie where
  | upper
  | even
deriving DecidableEq, Repr

def Tie.pick (tie : Tie) (lower : Nat) : Nat :=
  match tie with
  | .upper => lower + 1
  | .even => if lower % 2 = 0 then lower else lower + 1

/-- The multiple of `10 ^ place` that rounds to the value, if one of its two neighbours does. -/
def Rounding.onGrid? (r : Rounding) (tie : Tie) (place : Int) : Option Nat :=
  let up := Nat.pow 10 (-place).toNat
  let unit := r.denominator * Nat.pow 10 place.toNat
  let value := r.value * up
  let inside (multiple : Nat) : Bool :=
    if r.closed then r.low * up ≤ multiple * unit && multiple * unit ≤ r.high * up
    else r.low * up < multiple * unit && multiple * unit < r.high * up
  let lower := value / unit
  let upper := lower + 1
  match inside lower, inside upper with
  | true, true =>
    if value - lower * unit < upper * unit - value then some lower
    else if upper * unit - value < value - lower * unit then some upper
    else some (tie.pick lower)
  | true, false => some lower
  | false, true => some upper
  | false, false => none

def stripZeros : Nat → Nat → Nat × Nat
  | 0, digits => (digits, 0)
  | fuel + 1, digits =>
    if digits ≠ 0 ∧ digits % 10 = 0 then
      let (stripped, zeros) := stripZeros fuel (digits / 10)
      (stripped, zeros + 1)
    else
      (digits, 0)

def ofMultiple (multiple : Nat) (place : Int) : Decimal :=
  { digits := (stripZeros (digitCount multiple) multiple).1
    exponent := place + digitCount multiple - 1 }

def digitLimit : Nat := 17

def shortest (tie : Tie) (format : FloatFormat) (mantissa : Nat) (exponent : Int) : Decimal :=
  let r := Rounding.around format mantissa exponent
  let leading := leadingExponent r.value r.denominator
  let places := (List.range digitLimit).map fun (extra : Nat) => leading - (extra : Int)
  (places.findSome? fun place => (r.onGrid? tie place).map (ofMultiple · place)).getD ⟨0, 0⟩

/-- Which exponents are written with a plain point, the others being scientific, and which digits a
tie gives. -/
structure Layout where
  least : Int
  greatest : Int
  tie : Tie

def plain (d : Decimal) : String :=
  let digits := Nat.toDigits 10 d.digits
  if d.exponent < 0 then
    "0." ++ String.ofList (List.replicate (-d.exponent - 1).toNat '0' ++ digits)
  else
    let whole := d.exponent.toNat + 1
    let padded := digits ++ List.replicate (whole + 1 - digits.length) '0'
    String.ofList (padded.take whole) ++ "." ++ String.ofList (padded.drop whole)

def scientific (d : Decimal) : String :=
  let mantissa := match Nat.toDigits 10 d.digits with
    | [] => ""
    | [digit] => String.singleton digit
    | digit :: rest => String.singleton digit ++ "." ++ String.ofList rest
  mantissa ++ "e" ++ toString d.exponent

def text (layout : Layout) (d : Decimal) : String :=
  if layout.least ≤ d.exponent ∧ d.exponent ≤ layout.greatest then d.plain else d.scientific

def ofFinite (layout : Layout) (format : FloatFormat) (negative : Bool) (mantissa : Nat)
    (exponent : Int) : String :=
  let magnitude :=
    if mantissa = 0 then "0.0" else (shortest layout.tie format mantissa exponent).text layout
  if negative then "-" ++ magnitude else magnitude

end Decimal

end BytecodeToC
