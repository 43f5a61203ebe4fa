import BytecodeToC.Decimal

/-!
JSON values and their compact text.

Integers that fit 64 bits are kept exactly; every other number that is read is a double. A number
beyond the doubles and a string with an unpaired surrogate escape are legal JSON without a value of
their own: they appear as `none`, so that a reader who skips such a value need not reject it.
-/

namespace BytecodeToC

namespace Json

inductive Number where
  | integer (value : Int)
  /-- A number that is only written, with the digits of its single precision. -/
  | single (bits : UInt32)
  | double (bits : UInt64)
deriving DecidableEq, Repr

end Json

inductive Json where
  | null
  | bool (value : Bool)
  | number (value : Option Json.Number)
  | string (text : Option String)
  | array (items : List Json)
  | object (members : List (Option String × Json))
deriving Repr

namespace Json

def ofString (text : String) : Json := .string (some text)

def ofInt (value : Int) : Json := .number (some (.integer value))

def ofNat (value : Nat) : Json := ofInt value

def ofOption {α : Type} (encode : α → Json) : Option α → Json
  | none => .null
  | some value => encode value

def ofList {α : Type} (encode : α → Json) (values : List α) : Json := .array (values.map encode)

def ofMembers (members : List (String × Json)) : Json :=
  .object (members.map fun (key, value) => (some key, value))

mutual

def height : Json → Nat
  | .array items => heightOfItems items + 1
  | .object members => heightOfMembers members + 1
  | _ => 0

def heightOfItems : List Json → Nat
  | [] => 0
  | item :: rest => max item.height (heightOfItems rest)

def heightOfMembers : List (Option String × Json) → Nat
  | [] => 0
  | (_, value) :: rest => max value.height (heightOfMembers rest)

end

mutual

def isMeaningful : Json → Bool
  | .null | .bool _ => true
  | .number value => value.isSome
  | .string text => text.isSome
  | .array items => itemsMeaningful items
  | .object members => membersMeaningful members

def itemsMeaningful : List Json → Bool
  | [] => true
  | item :: rest => item.isMeaningful && itemsMeaningful rest

def membersMeaningful : List (Option String × Json) → Bool
  | [] => true
  | (key, value) :: rest => key.isSome && value.isMeaningful && membersMeaningful rest

end

def hexDigit (value : Nat) : Char :=
  if value % 16 < 10 then Char.ofNat ('0'.toNat + value % 16)
  else Char.ofNat ('a'.toNat + (value % 16 - 10))

def escapeChar (c : Char) : List Char :=
  match c with
  | '"' => ['\\', '"']
  | '\\' => ['\\', '\\']
  | '\n' => ['\\', 'n']
  | '\r' => ['\\', 'r']
  | '\t' => ['\\', 't']
  | '\x08' => ['\\', 'b']
  | '\x0c' => ['\\', 'f']
  | c =>
    if c.toNat < 0x20 then ['\\', 'u', '0', '0', hexDigit (c.toNat / 16), hexDigit c.toNat]
    else [c]

def quote (text : String) : String :=
  "\"" ++ String.ofList (text.toList.flatMap escapeChar) ++ "\""

/-- Singles are plain from 1e-6 up to, but not including, 1e13. -/
def singleLayout : Decimal.Layout := { least := -6, greatest := 12, tie := .even }

def doubleLayout : Decimal.Layout := { least := -5, greatest := 15, tie := .even }

/-- Infinities and values that are no number have no text of their own. -/
def floatText (layout : Decimal.Layout) (format : FloatFormat) (bits : Nat) : String :=
  match format.decode bits with
  | .finite negative mantissa exponent => Decimal.ofFinite layout format negative mantissa exponent
  | _ => "null"

def Number.text : Number → String
  | .integer value => toString value
  | .single bits => floatText singleLayout .single bits.toNat
  | .double bits => floatText doubleLayout .double bits.toNat

mutual

def compact : Json → String
  | .null => "null"
  | .bool true => "true"
  | .bool false => "false"
  | .number none => "null"
  | .number (some value) => value.text
  | .string none => "null"
  | .string (some text) => quote text
  | .array items => "[" ++ compactItems items ++ "]"
  | .object members => "\x7b" ++ compactMembers members ++ "\x7d"

def compactItems : List Json → String
  | [] => ""
  | [item] => item.compact
  | item :: rest => item.compact ++ "," ++ compactItems rest

def compactMembers : List (Option String × Json) → String
  | [] => ""
  | [(key, value)] => quote (key.getD "") ++ ":" ++ value.compact
  | (key, value) :: rest =>
    quote (key.getD "") ++ ":" ++ value.compact ++ "," ++ compactMembers rest

end

/-- A list of strings on lines of their own, two columns further in than `indent`. -/
def prettyStrings (indent : String) (texts : List String) : String :=
  match texts with
  | [] => "[]"
  | _ =>
    let lines := texts.map fun text => indent ++ "  " ++ quote text
    "[\n" ++ String.intercalate ",\n" lines ++ "\n" ++ indent ++ "]"

end Json

end BytecodeToC
