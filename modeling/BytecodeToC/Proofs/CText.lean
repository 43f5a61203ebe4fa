import BytecodeToC.Instr
import BytecodeToC.Proofs.CArithmetic
import BytecodeToC.Proofs.Digits

/-!
Reading C expressions. A text is cut into lexemes, each as long as possible, and the tokens that they
spell are read by the precedence of the operators: prefix operators before infix ones, and of two
infix operators the tighter one first, or the left one if they are equally tight.
-/

namespace BytecodeToC

namespace C

/-! Lexemes -/

def punctuators : List (List Char) :=
  ["++", "--", "->", "<<", ">>", "<=", ">=", "==", "!=", "&&", "||", "*=", "/=", "%=", "+=", "-=",
   "&=", "^=", "|=", "##", "<<=", ">>="].map String.toList

/-- Whether a character goes on with the lexeme read so far. Numbers take in letters, points and the
sign of an exponent, as far as they come. -/
def continues (lexeme : List Char) (next : Char) : Bool :=
  match lexeme with
  | [] => false
  | first :: _ =>
    if first.isDigit then
      LocalName.isWordChar next || next = '.' ||
        (next = '+' || next = '-') && (lexeme.getLast?.any fun last => "eEpP".toList.contains last)
    else if LocalName.isWordChar first then LocalName.isWordChar next
    else punctuators.contains (lexeme ++ [next])

def lexemesFrom (lexeme : List Char) : List Char → List (List Char)
  | [] => if lexeme = [] then [] else [lexeme]
  | next :: rest =>
    if continues lexeme next then lexemesFrom (lexeme ++ [next]) rest
    else
      (if lexeme = [] then [] else [lexeme]) ++
        lexemesFrom (if next.isWhitespace then [] else [next]) rest

/-! Tokens -/

inductive Token where
  | number (value : Number)
  | name (spelling : List Char)
  | type (type : IntType)
  | operator (op : Operator)
  | opening
  | closing
  | comma
  | other (lexeme : List Char)
deriving DecidableEq, Repr

def IntType.name : IntType → String
  | byte => "JAVA_BYTE"
  | char => "JAVA_CHAR"
  | short => "JAVA_SHORT"
  | int => "JAVA_INT"
  | uint => "JAVA_UINT"
  | long => "JAVA_LONG"
  | ulong => "JAVA_ULONG"

def IntType.all : List IntType := [byte, char, short, int, uint, long, ulong]

def Operator.text : Operator → String
  | mul => "*"
  | add => "+"
  | sub => "-"
  | shiftLeft => "<<"
  | shiftRight => ">>"
  | and => "&"
  | xor => "^"
  | or => "|"

def Operator.all : List Operator := [mul, add, sub, shiftLeft, shiftRight, and, xor, or]

def isHexDigit (c : Char) : Bool := c.isDigit || "abcdefABCDEF".toList.contains c

def hexValue (digits : List Char) : Nat :=
  digits.foldl (fun value c => 16 * value + if c.isDigit then c.toNat - '0'.toNat
    else c.toLower.toNat - 'a'.toNat + 10) 0

def Number.ofConstant? (value : Nat) (types : List IntType) : Option Number :=
  (types.find? (·.holds value)).map fun type => ⟨type, value⟩

/-- A decimal constant; one that starts with a zero would be octal and is not read. -/
def Number.ofDecimal? (lexeme : List Char) : Option Number :=
  let digits := lexeme.takeWhile Char.isDigit
  if digits = [] ∨ digits.head? = some '0' ∧ digits ≠ ['0'] then none
  else match lexeme.dropWhile Char.isDigit with
    | [] => ofConstant? (Nat.ofDigitChars 10 digits 0) [.int, .long]
    | ['L', 'L'] => ofConstant? (Nat.ofDigitChars 10 digits 0) [.long]
    | _ => none

def Number.ofHexadecimal? (lexeme : List Char) : Option Number :=
  let digits := lexeme.takeWhile isHexDigit
  if digits = [] then none
  else match lexeme.dropWhile isHexDigit with
    | [] => ofConstant? (hexValue digits) [.int, .uint, .long, .ulong]
    | ['L', 'L'] => ofConstant? (hexValue digits) [.long, .ulong]
    | _ => none

def Number.ofLexeme? (lexeme : List Char) : Option Number :=
  match lexeme with
  | '0' :: 'x' :: rest => ofHexadecimal? rest
  | lexeme => ofDecimal? lexeme

def Token.ofWord (word : List Char) : Token :=
  match IntType.all.find? (·.name.toList = word) with
  | some named => .type named
  | none =>
    if LocalName.keywords.any (·.toList = word) then .other word else .name word

def Token.ofPunctuator (lexeme : List Char) : Token :=
  match lexeme with
  | ['('] => .opening
  | [')'] => .closing
  | [','] => .comma
  | lexeme => match Operator.all.find? (·.text.toList = lexeme) with
    | some op => .operator op
    | none => .other lexeme

def Token.ofLexeme (lexeme : List Char) : Token :=
  match lexeme with
  | [] => .other []
  | first :: _ =>
    if first.isDigit then ((Number.ofLexeme? lexeme).map Token.number).getD (.other lexeme)
    else if LocalName.isWordChar first then .ofWord lexeme
    else .ofPunctuator lexeme

def tokens (text : List Char) : List Token := (lexemesFrom [] text).map Token.ofLexeme

/-! Expressions -/

def Operator.level : Operator → Nat
  | mul => 5
  | add | sub => 4
  | shiftLeft | shiftRight => 3
  | and => 2
  | xor => 1
  | or => 0

inductive Frame where
  | group
  | first (function : List Char)
  | second (function : List Char) (argument : Expr)
  | negate
  | cast (type : IntType)
  | right (op : Operator) (left : Expr)
deriving DecidableEq, Repr

def signed : List Frame → Expr → List Frame × Expr
  | .negate :: frames, operand => signed frames (.negate operand)
  | .cast type :: frames, operand => signed frames (.cast type operand)
  | frames, operand => (frames, operand)

/-- Operators that hold at least as tightly as the given level take their right operand. -/
def completed (level : Nat) : List Frame → Expr → List Frame × Expr
  | .right op left :: frames, operand =>
    if level ≤ op.level then completed level frames (.binary op left operand)
    else (.right op left :: frames, operand)
  | frames, operand => (frames, operand)

mutual

def readOperand : List Token → List Frame → Option Expr
  | .number value :: rest, frames => readOperator rest (signed frames (.number value))
  | .name function :: .opening :: rest, frames => readOperand rest (.first function :: frames)
  | .name name :: rest, frames => readOperator rest (signed frames (.named name))
  | .operator .sub :: rest, frames => readOperand rest (.negate :: frames)
  | .opening :: .type type :: .closing :: rest, frames => readOperand rest (.cast type :: frames)
  | .opening :: rest, frames => readOperand rest (.group :: frames)
  | _, _ => none

def readOperator : List Token → List Frame × Expr → Option Expr
  | .operator op :: rest, (frames, operand) =>
    let (outer, left) := completed op.level frames operand
    readOperand rest (.right op left :: outer)
  | .comma :: rest, (frames, operand) =>
    match completed 0 frames operand with
    | (.first function :: outer, argument) => readOperand rest (.second function argument :: outer)
    | _ => none
  | .closing :: rest, (frames, operand) =>
    match completed 0 frames operand with
    | (.group :: outer, inner) => readOperator rest (signed outer inner)
    | (.second function argument :: outer, inner) =>
      readOperator rest (signed outer (.call function argument inner))
    | _ => none
  | [], (frames, operand) =>
    match completed 0 frames operand with
    | ([], whole) => some whole
    | _ => none
  | _, _ => none

end

def Expr.ofText? (text : String) : Option Expr := readOperand (tokens text.toList) []

-- Precedence, associativity and prefix operators.
example : Expr.ofText? "a - b - 0x1f * -c" =
    some (.binary .sub (.binary .sub (.named ['a']) (.named ['b']))
      (.binary .mul (.number ⟨.int, 31⟩) (.negate (.named ['c'])))) := by
  decide +kernel

example : Expr.ofText? "(JAVA_UINT)(x) << 3 & -1" =
    some (.binary .and (.binary .shiftLeft (.cast .uint (.named ['x'])) (.number ⟨.int, 3⟩))
      (.negate (.number ⟨.int, 1⟩))) := by
  decide +kernel

example : Expr.ofText? "a --b" = none := by decide +kernel

example : (Expr.ofText? "2147483648" = some (.number ⟨.long, 2147483648⟩)) ∧
    Expr.ofText? "0x1e+1" = none := by
  decide +kernel

/-! Texts that spell tokens -/

@[simp] theorem continues_nil (next : Char) : continues [] next = false := rfl

theorem lexemesFrom_stop {lexeme rest : List Char} (filled : lexeme ≠ [])
    (stops : ∀ next ∈ rest.head?, continues lexeme next = false) :
    lexemesFrom lexeme rest = lexeme :: lexemesFrom [] rest := by
  cases rest with
  | nil => simp [lexemesFrom, filled]
  | cons next rest => simp [lexemesFrom, filled, stops next rfl]

theorem tokens_lexeme (lexeme : List Char) {rest : List Char} (filled : lexeme ≠ [])
    (whole : lexemesFrom [] (lexeme ++ rest) = lexemesFrom lexeme rest)
    (stops : ∀ next ∈ rest.head?, continues lexeme next = false) :
    tokens (lexeme ++ rest) = .ofLexeme lexeme :: tokens rest := by
  rw [tokens, whole, lexemesFrom_stop filled stops]
  rfl

theorem not_continues_bracket {bracket : Char} (known : bracket ∈ ['(', ')', ',']) (next : Char) :
    continues [bracket] next = false := by
  simp only [List.mem_cons, List.not_mem_nil, or_false] at known
  rcases known with rfl | rfl | rfl <;> simp [continues, punctuators, LocalName.isWordChar]

@[simp] theorem tokens_blank (rest : List Char) : tokens (' ' :: rest) = tokens rest := rfl

@[simp] theorem tokens_opening (rest : List Char) : tokens ('(' :: rest) = .opening :: tokens rest :=
  tokens_lexeme ['('] (by simp) rfl fun next _ => not_continues_bracket (by simp) next

@[simp] theorem tokens_closing (rest : List Char) : tokens (')' :: rest) = .closing :: tokens rest :=
  tokens_lexeme [')'] (by simp) rfl fun next _ => not_continues_bracket (by simp) next

@[simp] theorem tokens_comma (rest : List Char) : tokens (',' :: rest) = .comma :: tokens rest :=
  tokens_lexeme [','] (by simp) rfl fun next _ => not_continues_bracket (by simp) next

theorem tokens_minus {next : Char} (stops : continues ['-'] next = false) (rest : List Char) :
    tokens ('-' :: next :: rest) = .operator .sub :: tokens (next :: rest) := by
  refine tokens_lexeme ['-'] (by simp) rfl ?_
  rintro _ ⟨rfl⟩
  exact stops

@[simp] theorem tokens_operator (op : Operator) (rest : List Char) :
    tokens (op.text.toList ++ ' ' :: rest) = .operator op :: tokens rest := by
  have spelled : Token.ofLexeme op.text.toList = .operator op := by cases op <;> decide
  rw [← spelled, ← tokens_blank rest]
  apply tokens_lexeme
  · cases op <;> decide
  · cases op <;> rfl
  · rintro _ ⟨rfl⟩
    cases op <;> decide

def Delimited (rest : List Char) : Prop := ∀ next ∈ rest.head?, next ∈ [' ', ')', ',', '(']

theorem continues_word {first : Char} (initial : LocalName.isWordChar first = true)
    (read : List Char) {next : Char} (word : LocalName.isWordChar next = true) :
    continues (first :: read) next = true := by
  simp [continues, initial, word]

theorem not_continues_word {first : Char} (initial : LocalName.isWordChar first = true)
    (read : List Char) {next : Char} (delimiter : next ∈ [' ', ')', ',', '(']) :
    continues (first :: read) next = false := by
  have plain : LocalName.isWordChar next = false ∧ next ≠ '.' ∧ next ≠ '+' ∧ next ≠ '-' := by
    simp only [List.mem_cons, List.not_mem_nil, or_false] at delimiter
    rcases delimiter with rfl | rfl | rfl | rfl <;> decide
  simp [continues, initial, plain]

theorem lexemesFrom_word {first : Char} (initial : LocalName.isWordChar first = true)
    (read : List Char) {more : List Char} (word : more.all LocalName.isWordChar = true)
    (rest : List Char) :
    lexemesFrom (first :: read) (more ++ rest) = lexemesFrom (first :: (read ++ more)) rest := by
  induction more generalizing read with
  | nil => simp
  | cons next more ih =>
      simp only [List.all_cons, Bool.and_eq_true] at word
      rw [List.cons_append, lexemesFrom, if_pos (continues_word initial read word.1), List.cons_append,
        ih _ word.2]
      simp

theorem tokens_word {first : Char} (initial : LocalName.isWordChar first = true) {more : List Char}
    (word : more.all LocalName.isWordChar = true) {rest : List Char} (apart : Delimited rest) :
    tokens (first :: more ++ rest) = .ofLexeme (first :: more) :: tokens rest := by
  have black : first.isWhitespace = false := by
    by_contra blank
    simp only [Char.isWhitespace, Bool.not_eq_false, Bool.or_eq_true, decide_eq_true_eq] at blank
    rcases blank with ((rfl | rfl) | rfl) | rfl <;> simp [LocalName.isWordChar] at initial
  refine tokens_lexeme (first :: more) (by simp) ?_ fun next member => ?_
  · rw [List.cons_append, lexemesFrom, continues_nil]
    simpa [black] using lexemesFrom_word initial [] word rest
  · exact not_continues_word initial more (apart next member)

/-- Before whatever delimits it, the text spells these tokens. -/
def Spells (text : String) (spelled : List Token) : Prop :=
  ∀ rest, Delimited rest → tokens (text.toList ++ rest) = spelled ++ tokens rest

theorem spells_word {word : String} (filled : word.toList ≠ [])
    (chars : word.toList.all LocalName.isWordChar = true) :
    Spells word [.ofLexeme word.toList] := by
  intro rest apart
  obtain ⟨first, more, spelled⟩ := List.exists_cons_of_ne_nil filled
  rw [spelled, List.all_cons, Bool.and_eq_true] at chars
  rw [spelled]
  exact tokens_word chars.1 chars.2 apart

theorem spells_typeName (type : IntType) : Spells type.name [.type type] := by
  have token : Token.ofLexeme type.name.toList = .type type := by cases type <;> decide
  rw [← token]
  apply spells_word
  · cases type <;> decide
  · cases type <;> decide

/-- Wherever an operand is expected and no argument list follows, the tokens are read as the operand. -/
def Reads (spelled : List Token) (expr : Expr) : Prop :=
  ∀ rest frames, rest.head? ≠ some .opening →
    readOperand (spelled ++ rest) frames = readOperator rest (signed frames expr)

def Writes (text : String) (expr : Expr) : Prop :=
  ∃ spelled, Spells text spelled ∧ Reads spelled expr

theorem Writes.ofText? {text : String} {expr : Expr} (writes : Writes text expr) :
    Expr.ofText? text = some expr := by
  obtain ⟨spelled, spells, reads⟩ := writes
  have whole := spells [] (by simp [Delimited])
  have read := reads [] [] (by simp)
  rw [List.append_nil] at whole read
  rw [Expr.ofText?, whole, show tokens [] = [] from rfl, List.append_nil, read]
  rfl

theorem Reads.ne_type {spelled : List Token} {expr : Expr} (reads : Reads spelled expr)
    (rest : List Token) (type : IntType) : (spelled ++ rest).head? ≠ some (.type type) := by
  have read := reads [] [] (by simp)
  rw [List.append_nil, show readOperator [] (signed [] expr) = some expr from rfl] at read
  cases spelled with
  | nil => simp [readOperand] at read
  | cons token more =>
      intro first
      obtain rfl := Option.some.inj first
      simp [readOperand] at read

theorem readOperand_group {ahead : List Token} (frames : List Frame)
    (noCast : ∀ type, ahead.head? ≠ some (.type type)) :
    readOperand (.opening :: ahead) frames = readOperand ahead (.group :: frames) := by
  cases ahead with
  | nil => rfl
  | cons token rest =>
      cases token with
      | type type => exact absurd rfl (noCast type)
      | _ => rfl

section

variable {spelled left right : List Token} {expr first second : Expr}

theorem Reads.group (reads : Reads spelled expr) :
    Reads (.opening :: (spelled ++ [.closing])) expr := by
  intro rest frames _
  rw [List.cons_append, List.append_assoc, readOperand_group frames (reads.ne_type _),
    reads _ _ (by simp)]
  rfl

theorem Reads.negate (reads : Reads spelled expr) :
    Reads (.operator .sub :: spelled) (.negate expr) := by
  intro rest frames apart
  exact reads rest (.negate :: frames) apart

theorem Reads.cast (type : IntType) (reads : Reads spelled expr) :
    Reads (.opening :: .type type :: .closing :: spelled) (.cast type expr) := by
  intro rest frames apart
  exact reads rest (.cast type :: frames) apart

theorem Reads.binary (op : Operator) (leftReads : Reads left first) (rightReads : Reads right second) :
    Reads (.opening :: (left ++ .operator op :: (right ++ [.closing]))) (.binary op first second) := by
  intro rest frames _
  rw [List.cons_append, List.append_assoc, readOperand_group frames (leftReads.ne_type _),
    leftReads _ _ (by simp)]
  -- Nothing in front of the parenthesis can take the left operand away from the operator.
  have pushed : readOperator (.operator op :: (right ++ [.closing]) ++ rest)
      (signed (.group :: frames) first) =
        readOperand (right ++ .closing :: rest) (.right op first :: .group :: frames) := by
    simp [readOperator, signed, completed]
  rw [pushed, rightReads _ _ (by simp)]
  simp [readOperator, signed, completed]

theorem Reads.call (function : List Char) (leftReads : Reads left first)
    (rightReads : Reads right second) :
    Reads (.name function :: .opening :: (left ++ .comma :: (right ++ [.closing])))
      (.call function first second) := by
  intro rest frames _
  have entered : readOperand (.name function :: .opening :: (left ++ .comma :: (right ++ [.closing])) ++
      rest) frames = readOperand (left ++ .comma :: (right ++ .closing :: rest))
        (.first function :: frames) := by
    simp [readOperand]
  have pushed : readOperator (.comma :: (right ++ .closing :: rest))
      (signed (.first function :: frames) first) =
        readOperand (right ++ .closing :: rest) (.second function first :: frames) := by
    simp [readOperator, signed, completed]
  rw [entered, leftReads _ _ (by simp), pushed, rightReads _ _ (by simp)]
  simp [readOperator, signed, completed]

end

/-! Texts that stand for expressions -/

section

variable {text left right : String} {expr first second : Expr}

theorem Writes.group (writes : Writes text expr) : Writes ("(" ++ text ++ ")") expr := by
  obtain ⟨spelled, spells, reads⟩ := writes
  refine ⟨_, fun rest _ => ?_, reads.group⟩
  have inner := spells (')' :: rest) (by simp [Delimited])
  simpa using inner

theorem Writes.negate (writes : Writes text expr) : Writes ("-(" ++ text ++ ")") (.negate expr) := by
  obtain ⟨spelled, spells, reads⟩ := writes
  refine ⟨_, fun rest _ => ?_, reads.group.negate⟩
  have inner := spells (')' :: rest) (by simp [Delimited])
  have sign := tokens_minus (show continues ['-'] '(' = false by decide) (text.toList ++ ')' :: rest)
  simpa [inner] using sign

theorem Writes.cast (type : IntType) (writes : Writes text expr) :
    Writes ("(" ++ type.name ++ ")" ++ text) (.cast type expr) := by
  obtain ⟨spelled, spells, reads⟩ := writes
  refine ⟨_, fun rest apart => ?_, reads.cast type⟩
  have name := spells_typeName type (')' :: (text.toList ++ rest)) (by simp [Delimited])
  simpa [spells rest apart] using name

theorem Writes.binary (op : Operator) (leftWrites : Writes left first)
    (rightWrites : Writes right second) :
    Writes (BinaryOp.spaced left op.text right) (.binary op first second) := by
  obtain ⟨leftSpelled, leftSpells, leftReads⟩ := leftWrites
  obtain ⟨rightSpelled, rightSpells, rightReads⟩ := rightWrites
  refine ⟨_, fun rest _ => ?_, leftReads.binary op rightReads⟩
  have before := leftSpells (' ' :: (op.text.toList ++ ' ' :: (right.toList ++ ')' :: rest)))
    (by simp [Delimited])
  have behind := rightSpells (')' :: rest) (by simp [Delimited])
  simp only [tokens_blank, tokens_operator, behind, tokens_closing] at before
  simpa [BinaryOp.spaced] using before

theorem Writes.call {function : String} (named : Spells function [.name function.toList])
    (leftWrites : Writes left first) (rightWrites : Writes right second) :
    Writes (BinaryOp.applied function left right) (.call function.toList first second) := by
  obtain ⟨leftSpelled, leftSpells, leftReads⟩ := leftWrites
  obtain ⟨rightSpelled, rightSpells, rightReads⟩ := rightWrites
  refine ⟨_, fun rest _ => ?_, leftReads.call function.toList rightReads⟩
  have name := named ('(' :: (left.toList ++ ',' :: ' ' :: (right.toList ++ ')' :: rest)))
    (by simp [Delimited])
  have before := leftSpells (',' :: ' ' :: (right.toList ++ ')' :: rest)) (by simp [Delimited])
  have behind := rightSpells (')' :: rest) (by simp [Delimited])
  simp only [tokens_opening, before, tokens_comma, tokens_blank, behind, tokens_closing] at name
  simpa [BinaryOp.applied] using name

end

/-! Constants -/

theorem not_octal_toDigits (value : Nat) :
    ¬(Nat.toDigits 10 value = [] ∨
      (Nat.toDigits 10 value).head? = some '0' ∧ Nat.toDigits 10 value ≠ ['0']) := by
  rintro (none | ⟨zero, more⟩)
  · exact Nat.toDigits_ne_nil none
  · by_cases positive : 0 < value
    · exact head?_toDigits positive zero
    · obtain rfl : value = 0 := by omega
      exact more rfl

theorem not_continues_minus {digit : Char} (known : digit.isDigit = true) :
    continues ['-'] digit = false := by
  by_contra joined
  have member : ['-', digit] ∈ punctuators := by
    simpa [continues, LocalName.isWordChar] using joined
  have sign : digit = '-' ∨ digit = '>' ∨ digit = '=' := by simpa [punctuators] using member
  rcases sign with rfl | rfl | rfl <;> simp at known

inductive EndsIn : IntType → String → Prop
  | int : EndsIn .int ""
  | long : EndsIn .long "LL"

def Expr.literal (type : IntType) (value : Int) : Expr :=
  if 0 ≤ value then .number ⟨type, value⟩ else .negate (.number ⟨type, -value⟩)

namespace EndsIn

variable {type : IntType} {ending : String} (ends : EndsIn type ending)
include ends

theorem isSigned : type.isSigned = true := by
  cases ends <;> rfl

theorem promoted : type.promoted = type := by
  cases ends <;> rfl

theorem least_neg : type.least < 0 := by
  cases ends <;> decide

theorem ofLexeme?_toDigits (value : Nat) :
    Number.ofLexeme? (Nat.toDigits 10 value ++ ending.toList) =
      Number.ofDecimal? (Nat.toDigits 10 value ++ ending.toList) := by
  unfold Number.ofLexeme?
  split
  next rest spelled =>
    have member : 'x' ∈ Nat.toDigits 10 value ++ ending.toList := by simp [spelled]
    rcases List.mem_append.mp member with inside | behind
    · exact absurd (isDigit_toDigits inside) (by decide)
    · cases ends <;> simp at behind
  next => rfl

theorem ofLexeme?_eq {value : Nat} (small : value < -type.least) :
    Number.ofLexeme? (Nat.toDigits 10 value ++ ending.toList) = some ⟨type, value⟩ := by
  have stops : ∀ c ∈ ending.toList.head?, c.isDigit = false := by cases ends <;> simp
  have taken := takeWhile_toDigits value stops
  have left := dropWhile_toDigits value stops
  have back : Nat.ofDigitChars 10 (Nat.toDigits 10 value) 0 = value :=
    Nat.ofDigitChars_toDigits (by decide) (by decide)
  have negative := ends.least_neg
  have holds : type.holds value = true := by
    simp [IntType.holds, IntType.wrap_eq_self ends.isSigned (by omega) small]
  rw [ends.ofLexeme?_toDigits, Number.ofDecimal?, taken, left, if_neg (not_octal_toDigits value), back]
  cases ends <;> simp [Number.ofConstant?, holds]

theorem spells_constant {value : Nat} (small : value < -type.least) :
    Spells (toString value ++ ending) [.number ⟨type, value⟩] := by
  have spelled : (toString value ++ ending).toList = Nat.toDigits 10 value ++ ending.toList := by
    simp
  have token : Token.ofLexeme (toString value ++ ending).toList = .number ⟨type, value⟩ := by
    rw [spelled]
    have read := ends.ofLexeme?_eq small
    obtain ⟨digit, more, shape, initial⟩ := exists_digit value
    rw [shape, List.cons_append] at read ⊢
    simp [Token.ofLexeme, initial, read]
  rw [← token]
  apply spells_word
  · simp [Nat.toDigits_ne_nil]
  · rw [spelled, List.all_append, Bool.and_eq_true]
    constructor
    · rw [List.all_eq_true]
      intro digit member
      simp [LocalName.isWordChar, Char.isAlphanum, isDigit_toDigits member]
    · cases ends <;> decide

theorem writes_constant {value : Nat} (small : value < -type.least) :
    Writes (toString value ++ ending) (.number ⟨type, value⟩) := by
  refine ⟨_, ends.spells_constant small, ?_⟩
  intro rest frames _
  rfl

theorem writes_literal {value : Int} (low : type.least < value) (high : value < -type.least) :
    Writes (toString value ++ ending) (.literal type value) := by
  cases value with
  | ofNat value => exact ends.writes_constant high
  | negSucc value =>
      have small : ((value + 1 : Nat) : Int) < -type.least := by omega
      obtain ⟨spelled, spells, reads⟩ := ends.writes_constant small
      refine ⟨_, fun rest apart => ?_, reads.negate⟩
      -- The sign is a lexeme of its own, because a digit follows it.
      obtain ⟨digit, more, shape, initial⟩ := exists_digit (value + 1)
      have text : toString (Int.negSucc value) ++ ending = "-" ++ (toString (value + 1) ++ ending) := by
        rw [← String.append_assoc]
        rfl
      have digits : (toString (value + 1) ++ ending).toList = digit :: (more ++ ending.toList) := by
        simp [shape]
      have inner := spells rest apart
      rw [text, String.toList_append, digits]
      rw [digits] at inner
      exact (tokens_minus (not_continues_minus initial) _).trans (congrArg _ inner)

theorem eval_literal (store : List Char → Option Number) {value : Int}
    (low : type.least < value) (high : value < -type.least) :
    (Expr.literal type value).eval store = .value ⟨type, value⟩ := by
  unfold Expr.literal
  split
  · rfl
  · simp only [Expr.eval, Outcome.map, Expr.negated, ends.promoted, Int.neg_neg,
      IntType.wrap_eq_self ends.isSigned (Int.le_of_lt low) high]

end EndsIn

end C

end BytecodeToC
