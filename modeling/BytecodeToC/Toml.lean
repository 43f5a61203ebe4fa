import BytecodeToC.Toml.Number
import BytecodeToC.Toml.DateTime

/-!
A reader for TOML documents. Booleans, arrays and tables are kept; of strings, numbers and dates a
reader of configuration only needs to know that they are there, so they are read and forgotten.

A table can be opened by a header once, can be extended by dotted keys only if dotted keys or deeper
headers made it, and is closed when it is written inline. How deep values can be nested is bounded,
and so is the number of parts of a key.
-/

namespace BytecodeToC

namespace Toml

inductive Origin where
  | header
  | implicit
  | dotted
  | inlined
deriving DecidableEq, Repr

end Toml

inductive Toml where
  | boolean (value : Bool)
  | scalar
  | array (items : List Toml)
  | table (origin : Toml.Origin) (entries : List (String × Toml))
  /-- Tables with a common header in double brackets, the last one first. -/
  | tables (elements : List (List (String × Toml)))
deriving Repr

namespace Toml

abbrev Entries := List (String × Toml)

/-! Tables -/

def replaceAt (key : String) (value : Toml) (entries : Entries) : Entries :=
  entries.map fun (name, old) => if name = key then (name, value) else (name, old)

def insert? : List String → Toml → Entries → Option Entries
  | [], _, _ => none
  | [key], value, entries =>
    match entries.lookup key with
    | none => some (entries ++ [(key, value)])
    | some _ => none
  | key :: path, value, entries =>
    match entries.lookup key with
    | none => (insert? path value []).map fun inner => entries ++ [(key, .table .dotted inner)]
    | some (.table origin inner) =>
      if origin = .dotted ∨ origin = .implicit then
        (insert? path value inner).map fun inner => replaceAt key (.table origin inner) entries
      else none
    | some _ => none

/-- Changes the table that a header names; tables on the way are made if they are missing. -/
def update? (change : Option Toml → Option Toml) : List String → Entries → Option Entries
  | [], _ => none
  | [key], entries =>
    match entries.lookup key with
    | none => (change none).map fun value => entries ++ [(key, value)]
    | some old => (change (some old)).map fun value => replaceAt key value entries
  | key :: path, entries =>
    match entries.lookup key with
    | none =>
      (update? change path []).map fun inner => entries ++ [(key, .table .implicit inner)]
    | some (.table .inlined _) => none
    | some (.table origin inner) =>
      (update? change path inner).map fun inner => replaceAt key (.table origin inner) entries
    | some (.tables (last :: others)) =>
      (update? change path last).map fun last => replaceAt key (.tables (last :: others)) entries
    | some _ => none

def openTable : Option Toml → Option Toml
  | none => some (.table .header [])
  | some (.table .implicit entries) => some (.table .header entries)
  | some _ => none

def openElement : Option Toml → Option Toml
  | none => some (.tables [[]])
  | some (.tables elements) => some (.tables ([] :: elements))
  | some _ => none

def insertInto (key : List String) (value : Toml) : Option Toml → Option Toml
  | some (.table origin entries) => (insert? key value entries).map (.table origin)
  | some (.tables (last :: others)) =>
    (insert? key value last).map fun last => .tables (last :: others)
  | _ => none

/-! Characters -/

def isBlank (c : Char) : Bool := c = ' ' || c = '\t'

def skipBlanks (text : List Char) : List Char := text.dropWhile isBlank

def isPrintable (c : Char) : Bool := c = '\t' || (0x20 ≤ c.toNat && c.toNat ≠ 0x7f)

def afterNewline? : List Char → Option (List Char)
  | '\n' :: rest => some rest
  | '\r' :: '\n' :: rest => some rest
  | _ => none

def skipComment : List Char → List Char
  | '#' :: rest => rest.dropWhile isPrintable
  | text => text

def endOfLine? (text : List Char) : Option (List Char) :=
  match skipComment (skipBlanks text) with
  | [] => some []
  | rest => afterNewline? rest

def skipLines : Nat → List Char → List Char
  | 0, text => text
  | fuel + 1, text =>
    match afterNewline? (skipComment (skipBlanks text)) with
    | some rest => skipLines fuel rest
    | none => skipBlanks text

/-! Strings -/

def charOfHex? (digits : List Char) : Option Char := do
  let code := ofDigits 16 (← digits.mapM hexDigit?)
  if code < 0xd800 ∨ (0xdfff < code ∧ code < 0x110000) then some (Char.ofNat code) else none

def simpleEscape? : Char → Option Char
  | 'b' => some '\x08'
  | 't' => some '\t'
  | 'n' => some '\n'
  | 'f' => some '\x0c'
  | 'r' => some '\r'
  | '"' => some '"'
  | '\\' => some '\\'
  | _ => none

def readEscape? : List Char → Option (Char × List Char)
  | 'u' :: a :: b :: c :: d :: rest => (charOfHex? [a, b, c, d]).map (·, rest)
  | 'U' :: a :: b :: c :: d :: e :: f :: g :: h :: rest =>
    (charOfHex? [a, b, c, d, e, f, g, h]).map (·, rest)
  | c :: rest => (simpleEscape? c).map (·, rest)
  | [] => none

def readBasic? : Nat → List Char → Option (List Char × List Char)
  | 0, _ => none
  | _ + 1, '"' :: rest => some ([], rest)
  | fuel + 1, '\\' :: rest => do
    let (c, afterEscape) ← readEscape? rest
    let (chars, after) ← readBasic? fuel afterEscape
    some (c :: chars, after)
  | fuel + 1, c :: rest =>
    if isPrintable c then (readBasic? fuel rest).map fun (chars, after) => (c :: chars, after)
    else none
  | _ + 1, [] => none

def readLiteral? : List Char → Option (List Char × List Char)
  | '\'' :: rest => some ([], rest)
  | c :: rest =>
    if isPrintable c then (readLiteral? rest).map fun (chars, after) => (c :: chars, after) else none
  | [] => none

/-- What follows a string that may hold ends of lines, after its opening quotes. Up to two quotes
may stand before the closing ones, and a backslash hides the end of its line. -/
def afterLines? (quote : Char) (escapes : Bool) : Nat → List Char → Option (List Char)
  | 0, _ => none
  | fuel + 1, a :: b :: c :: rest =>
    if a = quote ∧ b = quote ∧ c = quote then
      let extra := (rest.takeWhile (· = quote)).length
      if extra ≤ 2 then some (rest.drop extra) else none
    else if escapes ∧ a = '\\' then
      match readEscape? (b :: c :: rest) with
      | some (_, after) => afterLines? quote escapes fuel after
      | none =>
        (afterNewline? (skipBlanks (b :: c :: rest))).bind (afterLines? quote escapes fuel)
    else if isPrintable a then afterLines? quote escapes fuel (b :: c :: rest)
    else (afterNewline? (a :: b :: c :: rest)).bind (afterLines? quote escapes fuel)
  | _ + 1, _ => none

/-! Keys -/

def isBareChar (c : Char) : Bool := c.isAlphanum || c = '_' || c = '-'

def readSimpleKey? (text : List Char) : Option (String × List Char) :=
  match text with
  | '"' :: rest => (readBasic? (rest.length + 1) rest).map fun (key, after) => (String.ofList key, after)
  | '\'' :: rest => (readLiteral? rest).map fun (key, after) => (String.ofList key, after)
  | _ =>
    match text.takeWhile isBareChar with
    | [] => none
    | key => some (String.ofList key, text.dropWhile isBareChar)

/-- Keys have fewer parts, and arrays and inline tables are nested less deep. -/
def nestingLimit : Nat := 80

def readParts? (room : Nat) (text : List Char) : Option (List String × List Char) :=
  match room with
  | 0 => none
  | room + 1 => do
    let (part, rest) ← readSimpleKey? (skipBlanks text)
    match skipBlanks rest with
    | '.' :: more =>
      let (parts, after) ← readParts? room more
      some (part :: parts, after)
    | after => some ([part], after)

def readKey? (text : List Char) : Option (List String × List Char) :=
  readParts? (nestingLimit - 1) text

/-! Values -/

def isWordChar (c : Char) : Bool :=
  c.isAlphanum || c = '_' || c = '+' || c = '-' || c = '.' || c = ':'

/-- A word and what follows it. A time that follows a date after a space belongs to its word. -/
def splitWord (text : List Char) : List Char × List Char :=
  let word := text.takeWhile isWordChar
  match text.dropWhile isWordChar with
  | ' ' :: digit :: rest =>
    if isDate word && digit.isDigit then
      (word ++ ' ' :: (digit :: rest).takeWhile isWordChar, (digit :: rest).dropWhile isWordChar)
    else
      (word, ' ' :: digit :: rest)
  | rest => (word, rest)

def readWord? (text : List Char) : Option (Toml × List Char) :=
  match splitWord text with
  | (['t', 'r', 'u', 'e'], rest) => some (.boolean true, rest)
  | (['f', 'a', 'l', 's', 'e'], rest) => some (.boolean false, rest)
  | (word, rest) => if isNumber word || isDateTime word then some (.scalar, rest) else none

mutual

def readValue? (fuel depth : Nat) (text : List Char) : Option (Toml × List Char) :=
  match fuel with
  | 0 => none
  | fuel + 1 =>
    match text with
    | '"' :: '"' :: '"' :: rest => (afterLines? '"' true (rest.length + 1) rest).map (.scalar, ·)
    | '"' :: rest => (readBasic? (rest.length + 1) rest).map fun (_, after) => (.scalar, after)
    | '\'' :: '\'' :: '\'' :: rest =>
      (afterLines? '\'' false (rest.length + 1) rest).map (.scalar, ·)
    | '\'' :: rest => (readLiteral? rest).map fun (_, after) => (.scalar, after)
    | '[' :: rest =>
      if depth + 1 < nestingLimit then
        (readItems? fuel (depth + 1) rest).map fun (items, after) => (.array items, after)
      else none
    | '\x7b' :: rest =>
      if depth + 1 < nestingLimit then
        match skipBlanks rest with
        | '\x7d' :: after => some (.table .inlined [], after)
        | _ =>
          (readPairs? fuel (depth + 1) [] rest).map fun (entries, after) =>
            (.table .inlined entries, after)
      else none
    | _ => readWord? text

def readItems? (fuel depth : Nat) (text : List Char) : Option (List Toml × List Char) :=
  match fuel with
  | 0 => none
  | fuel + 1 =>
    match skipLines text.length text with
    | ']' :: after => some ([], after)
    | start => do
      let (item, rest) ← readValue? fuel depth start
      match skipLines rest.length rest with
      | ']' :: after => some ([item], after)
      | ',' :: next =>
        let (items, after) ← readItems? fuel depth next
        some (item :: items, after)
      | _ => none

def readPairs? (fuel depth : Nat) (entries : Entries) (text : List Char) :
    Option (Entries × List Char) :=
  match fuel with
  | 0 => none
  | fuel + 1 => do
    let (key, value, rest) ← readPair? fuel depth text
    let entries ← insert? key value entries
    match skipBlanks rest with
    | '\x7d' :: after => some (entries, after)
    | ',' :: next => readPairs? fuel depth entries next
    | _ => none

def readPair? (fuel depth : Nat) (text : List Char) : Option (List String × Toml × List Char) :=
  match fuel with
  | 0 => none
  | fuel + 1 => do
    let (key, rest) ← readKey? text
    match rest with
    | '=' :: next =>
      let (value, after) ← readValue? fuel depth (skipBlanks next)
      some (key, value, after)
    | _ => none

end

/-! Documents -/

structure Document where
  entries : Entries := []
  header : Option (List String) := none

namespace Document

def insert? (document : Document) (key : List String) (value : Toml) : Option Document :=
  match document.header with
  | none =>
    (Toml.insert? key value document.entries).map fun entries => { document with entries }
  | some header =>
    (update? (insertInto key value) header document.entries).map fun entries =>
      { document with entries }

def open? (document : Document) (change : Option Toml → Option Toml) (header : List String) :
    Option Document :=
  (update? change header document.entries).map fun entries => { entries, header := some header }

def readLine? (document : Document) (text : List Char) : Option (Document × List Char) :=
  let start := skipBlanks text
  match start with
  | '[' :: '[' :: rest => do
    let (header, afterKey) ← readKey? rest
    match afterKey with
    | ']' :: ']' :: after => (document.open? openElement header).map (·, after)
    | _ => none
  | '[' :: rest => do
    let (header, afterKey) ← readKey? rest
    match afterKey with
    | ']' :: after => (document.open? openTable header).map (·, after)
    | _ => none
  | [] | '#' :: _ | '\n' :: _ | '\r' :: _ => some (document, start)
  | _ => do
    let (key, value, after) ← readPair? (2 * text.length + 2) 0 start
    (document.insert? key value).map (·, after)

def readLines? : Nat → Document → List Char → Option Document
  | 0, _, _ => none
  | fuel + 1, document, text =>
    match text with
    | [] => some document
    | _ => do
      let (next, rest) ← document.readLine? text
      let after ← endOfLine? rest
      readLines? fuel next after

end Document

def parse? (text : String) : Option Entries :=
  let chars := match text.toList with
    | '\ufeff' :: rest => rest
    | chars => chars
  (Document.readLines? (chars.length + 1) {} chars).map (·.entries)

end Toml

end BytecodeToC
