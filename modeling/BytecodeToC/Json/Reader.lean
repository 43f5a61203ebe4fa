import BytecodeToC.Json

/-!
Strict JSON reader. It works on the characters and returns what follows the value it read; the fuel
of the nested readers bounds their depth and is never short when it exceeds the length of the text.

A decimal number is read in two rounded steps: the leading digits that fit 64 bits are taken as an
integer and rounded to a double, which is then multiplied or divided by a power of ten. A number
whose result is not finite has no value.
-/

namespace BytecodeToC

namespace Json

def isBlank (c : Char) : Bool := c = ' ' || c = '\n' || c = '\t' || c = '\r'

def skipBlanks (text : List Char) : List Char := text.dropWhile isBlank

/-! Numbers -/

def wordLimit : Nat := UInt64.size

def digitValue (digit : Char) : Nat := digit.toNat - '0'.toNat

def ofDigits (digits : List Char) : Nat :=
  digits.foldl (fun value digit => value * 10 + digitValue digit) 0

def takeDigits : Nat → List Char → Nat × Nat
  | value, [] => (value, 0)
  | value, digit :: rest =>
    if value * 10 + digitValue digit < wordLimit then
      let (total, taken) := takeDigits (value * 10 + digitValue digit) rest
      (total, taken + 1)
    else
      (value, 0)

def powerOfTen (exponent : Nat) : Float := Float.ofScientific 1 false exponent

def scaleDown (value : Float) (exponent : Nat) : Float :=
  if exponent ≤ 308 then value / powerOfTen exponent
  else if value == 0 then value
  else scaleDown (value / powerOfTen 308) (exponent - 308)
termination_by exponent

def scaleUp? (value : Float) (exponent : Nat) : Option Float :=
  if exponent ≤ 308 then
    let scaled := value * powerOfTen exponent
    if scaled.isFinite then some scaled else none
  else if value == 0 then some value
  else none

def Number.ofParts? (negative : Bool) (whole : List Char) (fraction : Option (List Char))
    (exponent : Option Int) : Option Number :=
  let magnitude := ofDigits whole
  let exact := fraction.isNone && exponent.isNone
  if exact && !negative && magnitude < wordLimit then
    some (.integer magnitude)
  else if exact && negative && 0 < magnitude && magnitude ≤ wordLimit / 2 then
    some (.integer (-(magnitude : Int)))
  else
    let (leading, takenWhole) := takeDigits 0 whole
    let dropped := whole.length - takenWhole
    let (significand, takenFraction) := takeDigits leading (fraction.getD [])
    let scale := exponent.getD 0 + dropped - takenFraction
    let start := significand.toUInt64.toFloat
    let scaled := if 0 ≤ scale then scaleUp? start scale.toNat else some (scaleDown start (-scale).toNat)
    scaled.map fun value => .double (if negative then -value else value).toBits

def readDigits (text : List Char) : List Char × List Char :=
  (text.takeWhile Char.isDigit, text.dropWhile Char.isDigit)

/-- A fraction, if there is a point: `none` if no digit follows it. -/
def readFraction? : List Char → Option (Option (List Char) × List Char)
  | '.' :: rest =>
    match readDigits rest with
    | ([], _) => none
    | (digits, after) => some (some digits, after)
  | text => some (none, text)

def readSign : List Char → Bool × List Char
  | '+' :: rest => (false, rest)
  | '-' :: rest => (true, rest)
  | text => (false, text)

def readExponent? : List Char → Option (Option Int × List Char)
  | c :: rest =>
    if c = 'e' ∨ c = 'E' then
      let (negative, unsigned) := readSign rest
      match readDigits unsigned with
      | ([], _) => none
      | (digits, after) =>
        let magnitude : Int := ofDigits digits
        some (some (if negative then -magnitude else magnitude), after)
    else
      some (none, c :: rest)
  | [] => some (none, [])

def readWhole? : List Char → Option (List Char × List Char)
  | '0' :: rest => some (['0'], rest)
  | text =>
    match readDigits text with
    | ([], _) => none
    | (digits, after) => some (digits, after)

def readNumber? (text : List Char) : Option (Json × List Char) := do
  let (negative, unsigned) := match text with
    | '-' :: rest => (true, rest)
    | _ => (false, text)
  let (whole, afterWhole) ← readWhole? unsigned
  let (fraction, afterFraction) ← readFraction? afterWhole
  let (exponent, rest) ← readExponent? afterFraction
  some (.number (Number.ofParts? negative whole fraction exponent), rest)

/-! Strings -/

/-- A character, or half of one written as a surrogate escape. -/
inductive Piece where
  | char (c : Char)
  | surrogate (unit : Nat)
deriving DecidableEq, Repr

def hexValue? (c : Char) : Option Nat :=
  if c.isDigit then some (digitValue c)
  else if 'a' ≤ c ∧ c ≤ 'f' then some (c.toNat - 'a'.toNat + 10)
  else if 'A' ≤ c ∧ c ≤ 'F' then some (c.toNat - 'A'.toNat + 10)
  else none

def unitOfHex? (a b c d : Char) : Option Nat := do
  let a ← hexValue? a
  let b ← hexValue? b
  let c ← hexValue? c
  let d ← hexValue? d
  some (((a * 16 + b) * 16 + c) * 16 + d)

def Piece.ofUnit (unit : Nat) : Piece :=
  if 0xd800 ≤ unit ∧ unit ≤ 0xdfff then .surrogate unit else .char (Char.ofNat unit)

def simpleEscape? : Char → Option Char
  | '"' => some '"'
  | '\\' => some '\\'
  | '/' => some '/'
  | 'b' => some '\x08'
  | 'f' => some '\x0c'
  | 'n' => some '\n'
  | 'r' => some '\r'
  | 't' => some '\t'
  | _ => none

def readPieces? : List Char → Option (List Piece × List Char)
  | '"' :: rest => some ([], rest)
  | '\\' :: 'u' :: a :: b :: c :: d :: rest => do
    let unit ← unitOfHex? a b c d
    let (pieces, after) ← readPieces? rest
    some (Piece.ofUnit unit :: pieces, after)
  | '\\' :: escaped :: rest => do
    let c ← simpleEscape? escaped
    let (pieces, after) ← readPieces? rest
    some (.char c :: pieces, after)
  | c :: rest =>
    if c.toNat < 0x20 then none
    else do
      let (pieces, after) ← readPieces? rest
      some (.char c :: pieces, after)
  | [] => none

/-- Joins surrogate halves; `none` if one stands alone. -/
def joinPieces? : List Piece → Option (List Char)
  | [] => some []
  | .char c :: rest => (joinPieces? rest).map (c :: ·)
  | .surrogate high :: .surrogate low :: rest =>
    if high ≤ 0xdbff ∧ 0xdc00 ≤ low then
      (joinPieces? rest).map
        (Char.ofNat (0x10000 + (high - 0xd800) * 0x400 + (low - 0xdc00)) :: ·)
    else none
  | .surrogate _ :: _ => none

def readString? (text : List Char) : Option (Option String × List Char) :=
  (readPieces? text).map fun (pieces, after) => ((joinPieces? pieces).map String.ofList, after)

/-! Values -/

def afterWord? : List Char → List Char → Option (List Char)
  | [], text => some text
  | w :: word, c :: text => if w = c then afterWord? word text else none
  | _ :: _, [] => none

mutual

def readValue? (fuel : Nat) (text : List Char) : Option (Json × List Char) :=
  match fuel with
  | 0 => none
  | fuel + 1 =>
    match skipBlanks text with
    | '"' :: rest => (readString? rest).map fun (text, after) => (.string text, after)
    | '[' :: rest =>
      match skipBlanks rest with
      | ']' :: after => some (.array [], after)
      | _ => (readItems? fuel rest).map fun (items, after) => (.array items, after)
    | '\x7b' :: rest =>
      match skipBlanks rest with
      | '\x7d' :: after => some (.object [], after)
      | _ => (readMembers? fuel rest).map fun (members, after) => (.object members, after)
    | 't' :: rest => (afterWord? ['r', 'u', 'e'] rest).map fun after => (.bool true, after)
    | 'f' :: rest => (afterWord? ['a', 'l', 's', 'e'] rest).map fun after => (.bool false, after)
    | 'n' :: rest => (afterWord? ['u', 'l', 'l'] rest).map fun after => (.null, after)
    | rest => readNumber? rest

def readItems? (fuel : Nat) (text : List Char) : Option (List Json × List Char) :=
  match fuel with
  | 0 => none
  | fuel + 1 => do
    let (item, rest) ← readValue? fuel text
    match skipBlanks rest with
    | ']' :: after => some ([item], after)
    | ',' :: next =>
      let (items, after) ← readItems? fuel next
      some (item :: items, after)
    | _ => none

def readMembers? (fuel : Nat) (text : List Char) :
    Option (List (Option String × Json) × List Char) :=
  match fuel with
  | 0 => none
  | fuel + 1 =>
    match skipBlanks text with
    | '"' :: rest => do
      let (key, afterKey) ← readString? rest
      match skipBlanks afterKey with
      | ':' :: beforeValue =>
        let (value, afterValue) ← readValue? fuel beforeValue
        match skipBlanks afterValue with
        | '\x7d' :: after => some ([(key, value)], after)
        | ',' :: next =>
          let (members, after) ← readMembers? fuel next
          some ((key, value) :: members, after)
        | _ => none
      | _ => none
    | _ => none

end

def parse? (text : String) : Option Json :=
  let chars := text.toList
  match readValue? (2 * chars.length + 1) chars with
  | some (value, rest) => if skipBlanks rest = [] then some value else none
  | none => none

end Json

end BytecodeToC
