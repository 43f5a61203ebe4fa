/-!
The dates and times of TOML: a day of the calendar, a time of day with seconds, or both, and then
perhaps with the offset from universal time. What is on the calendar is accepted; its value is not
kept.
-/

namespace BytecodeToC

namespace Toml

def readField? (width : Nat) (text : List Char) : Option (Nat × List Char) :=
  let digits := text.take width
  let append (value : Nat) (digit : Char) := value * 10 + (digit.toNat - '0'.toNat)
  if digits.length = width ∧ digits.all Char.isDigit then
    some (digits.foldl append 0, text.drop width)
  else
    none

def afterMark? (mark : Char) : List Char → Option (List Char)
  | c :: rest => if c = mark then some rest else none
  | [] => none

def isLeapYear (year : Nat) : Bool := year % 4 = 0 && (year % 100 ≠ 0 || year % 400 = 0)

def daysInMonth (year month : Nat) : Nat :=
  match month with
  | 1 | 3 | 5 | 7 | 8 | 10 | 12 => 31
  | 4 | 6 | 9 | 11 => 30
  | 2 => if isLeapYear year then 29 else 28
  | _ => 0

def afterDate? (text : List Char) : Option (List Char) := do
  let (year, rest) ← readField? 4 text
  let (month, rest) ← readField? 2 (← afterMark? '-' rest)
  let (day, rest) ← readField? 2 (← afterMark? '-' rest)
  if 1 ≤ day ∧ day ≤ daysInMonth year month then some rest else none

def afterMinute? (text : List Char) : Option (List Char) := do
  let (hour, rest) ← readField? 2 text
  let (minute, rest) ← readField? 2 (← afterMark? ':' rest)
  if hour < 24 ∧ minute < 60 then some rest else none

def skipFraction : List Char → List Char
  | '.' :: digit :: rest =>
    if digit.isDigit then rest.dropWhile Char.isDigit else '.' :: digit :: rest
  | text => text

/-- What follows a time of day. A minute with a leap second has a second 60. -/
def afterTime? (text : List Char) : Option (List Char) := do
  let (second, rest) ← readField? 2 (← afterMark? ':' (← afterMinute? text))
  if second ≤ 60 then some (skipFraction rest) else none

def isOffset : List Char → Bool
  | [] | ['Z'] | ['z'] => true
  | '+' :: rest | '-' :: rest => afterMinute? rest = some []
  | _ => false

def isDate (text : List Char) : Bool := afterDate? text = some []

def isDateTime (text : List Char) : Bool :=
  match afterDate? text with
  | some [] => true
  | some (mark :: time) =>
    (mark = 'T' || mark = 't' || mark = ' ') && (afterTime? time).any isOffset
  | none => afterTime? text = some []

end Toml

end BytecodeToC
