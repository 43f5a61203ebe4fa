import BytecodeToC.Literal
import BytecodeToC.Proofs.DescriptorBytes
import Mathlib.Data.List.Chain

/-!
String literals. C reads a literal character by character: a backslash starts a simple escape or an
octal one, which takes as many octal digits as follow it, but no more than three. Read so, the literal
of a text gives the UTF-8 encoding of the text.
-/

namespace BytecodeToC

/-! Reading literals -/

namespace C

def isOctalDigit (c : Char) : Bool := '0' ≤ c && c ≤ '7'

def octalValue (digits : List Char) : Nat :=
  digits.foldl (fun value digit => 8 * value + (digit.toNat - '0'.toNat)) 0

def octalDigits (text : List Char) : List Char := (text.take 3).takeWhile isOctalDigit

def simpleEscapes : List (Char × UInt8) :=
  [('\x27', 0x27), ('"', 0x22), ('?', 0x3f), ('\\', 0x5c), ('a', 0x07), ('b', 0x08), ('f', 0x0c),
   ('n', 0x0a), ('r', 0x0d), ('t', 0x09), ('v', 0x0b)]

def simpleEscape? (letter : Char) : Option UInt8 :=
  (simpleEscapes.find? (·.1 = letter)).map (·.2)

def readEscape? (text : List Char) : Option (UInt8 × List Char) :=
  let digits := octalDigits text
  if digits = [] then
    (text.head?.bind simpleEscape?).map fun byte => (byte, text.tail)
  else if octalValue digits < 256 then
    some (UInt8.ofNat (octalValue digits), text.drop digits.length)
  else none

def readCharacter? : List Char → Option (UInt8 × List Char)
  | [] => none
  | '\\' :: rest => readEscape? rest
  | c :: rest =>
    if c = '"' ∨ c = '\n' ∨ 128 ≤ c.toNat then none else some (UInt8.ofNat c.toNat, rest)

theorem length_of_readEscape? {text rest : List Char} {byte : UInt8}
    (read : readEscape? text = some (byte, rest)) : rest.length < text.length := by
  cases text with
  | nil => simp [readEscape?, octalDigits] at read
  | cons c after =>
      unfold readEscape? at read
      dsimp only at read
      split at read
      next =>
        obtain ⟨value, _, same⟩ := Option.map_eq_some_iff.mp read
        cases same
        simp
      next some =>
        split at read
        next =>
          cases read
          have positive := List.length_pos_iff.mpr some
          simp only [List.length_drop, List.length_cons]
          omega
        next => cases read

theorem length_of_readCharacter? {text rest : List Char} {byte : UInt8}
    (read : readCharacter? text = some (byte, rest)) : rest.length < text.length := by
  unfold readCharacter? at read
  split at read
  next => cases read
  next =>
    have shorter := length_of_readEscape? read
    simp only [List.length_cons]
    omega
  next =>
    split at read
    next => cases read
    next =>
      cases read
      simp

def readBytes? (text : List Char) : Option (List UInt8 × List Char) :=
  if text.head? = some '"' then some ([], text.tail)
  else
    match _read : readCharacter? text with
    | none => none
    | some (byte, rest) => (readBytes? rest).map fun (bytes, after) => (byte :: bytes, after)
termination_by text.length
decreasing_by exact length_of_readCharacter? ‹_›

def bytesOfLiteral? (text : String) : Option (List UInt8) :=
  match text.toList with
  | '"' :: inner =>
    match readBytes? inner with
    | some (bytes, []) => some bytes
    | _ => none
  | _ => none

-- An octal escape takes up to three digits, here two and three.
example : bytesOfLiteral? "\"\\12x\\1018\"" = some [0x0a, 0x78, 0x41, 0x38] := by decide +kernel

def quotesEscaped : List Char → Bool
  | [] => true
  | ['\\'] => false
  | '\\' :: _ :: rest => quotesEscaped rest
  | c :: rest => c ≠ '"' && quotesEscaped rest

def IsPrintable (c : Char) : Prop := ' ' ≤ c ∧ c ≤ '~'
deriving Decidable

/-! Spellings -/

theorem letter_of_simpleEscape? {letter : Char} {byte : UInt8}
    (known : simpleEscape? letter = some byte) :
    isOctalDigit letter = false ∧ IsPrintable letter := by
  have all : ∀ pair ∈ simpleEscapes, isOctalDigit pair.1 = false ∧ IsPrintable pair.1 := by decide
  obtain ⟨pair, found, _⟩ := Option.map_eq_some_iff.mp known
  obtain rfl : pair.1 = letter := by simpa using List.find?_some found
  exact all pair (List.mem_of_find?_eq_some found)

theorem isPrintable_of_isOctalDigit {digit : Char} (octal : isOctalDigit digit = true) :
    IsPrintable digit := by
  simp only [isOctalDigit, Bool.and_eq_true, decide_eq_true_eq] at octal
  exact ⟨Char.le_trans (by decide) octal.1, Char.le_trans octal.2 (by decide)⟩

theorem plain_of_isOctalDigit {digit : Char} (octal : isOctalDigit digit = true) :
    digit ≠ '"' ∧ digit ≠ '\\' ∧ digit ≠ '?' := by
  refine ⟨?_, ?_, ?_⟩ <;> rintro rfl <;> exact absurd octal (by decide)

def Apart (left right : Char) : Prop := ¬(left = '?' ∧ right = '?')

/-- The spellings of a byte in a literal that no following character can change. -/
inductive SpellsByte : List Char → UInt8 → Prop
  | plain {c : Char} (printable : IsPrintable c) (free : c ≠ '"' ∧ c ≠ '\\' ∧ c ≠ '?') :
      SpellsByte [c] (UInt8.ofNat c.toNat)
  | simple {c : Char} {byte : UInt8} (known : simpleEscape? c = some byte) : SpellsByte ['\\', c] byte
  | octal {first second third : Char}
      (digits : ∀ digit ∈ [first, second, third], isOctalDigit digit = true)
      (small : octalValue [first, second, third] < 256) :
      SpellsByte ['\\', first, second, third] (UInt8.ofNat (octalValue [first, second, third]))

namespace SpellsByte

variable {chars : List Char} {byte : UInt8}

theorem readCharacter? (spells : SpellsByte chars byte) (rest : List Char) :
    readCharacter? (chars ++ rest) = some (byte, rest) := by
  cases spells with
  | @plain c printable free =>
      have newline : c ≠ '\n' := by
        rintro rfl
        exact absurd printable (by decide)
      have small : c.toNat ≤ '~'.toNat := printable.2
      have bound : '~'.toNat < 128 := by decide
      have accepted : ¬(c = '"' ∨ c = '\n' ∨ 128 ≤ c.toNat) := by
        simp only [free.1, newline, false_or]
        omega
      rw [List.singleton_append, C.readCharacter?, if_neg accepted]
      exact free.2.1
  | simple known =>
      have letter := (letter_of_simpleEscape? known).1
      simp [C.readCharacter?, readEscape?, octalDigits, letter, known]
  | octal digits small =>
      simp_all [C.readCharacter?, readEscape?, octalDigits]

theorem isPrintable (spells : SpellsByte chars byte) : ∀ c ∈ chars, IsPrintable c := by
  cases spells with
  | plain printable free => simpa using printable
  | simple known =>
      intro c member
      rcases List.mem_cons.mp member with rfl | member
      · decide
      · obtain rfl := List.mem_singleton.mp member
        exact (letter_of_simpleEscape? known).2
  | octal digits small =>
      intro c member
      rcases List.mem_cons.mp member with rfl | member
      · decide
      · exact isPrintable_of_isOctalDigit (digits c member)

theorem quotesEscaped (spells : SpellsByte chars byte) (rest : List Char) :
    quotesEscaped (chars ++ rest) = quotesEscaped rest := by
  cases spells with
  | plain printable free =>
      rw [List.singleton_append, C.quotesEscaped] <;> simp [free]
  | simple known => rfl
  | @octal first second third digits small =>
      have escaped : C.quotesEscaped (['\\', first, second, third] ++ rest) =
          C.quotesEscaped (second :: third :: rest) := rfl
      have two := plain_of_isOctalDigit (digits second (by simp))
      have three := plain_of_isOctalDigit (digits third (by simp))
      rw [escaped, C.quotesEscaped, C.quotesEscaped] <;> simp [two, three]

theorem head?_ne (spells : SpellsByte chars byte) (rest : List Char) :
    (chars ++ rest).head? ≠ some '"' := by
  cases spells with
  | plain printable free => simpa using free.1
  | simple known => simp
  | octal digits small => simp

theorem apart (spells : SpellsByte chars byte) : chars.IsChain Apart ∧ chars.head? ≠ some '?' := by
  cases spells with
  | plain printable free => simpa using free.2.2
  | simple known => simp [Apart]
  | @octal first second third digits small =>
      have one := plain_of_isOctalDigit (digits first (by simp))
      have two := plain_of_isOctalDigit (digits second (by simp))
      simp [Apart, one, two]

end SpellsByte

end C

namespace Utf8

theorem toList_loop (bytes : ByteArray) (position : Nat) (read : List UInt8) :
    ByteArray.toList.loop bytes position read = read.reverse ++ bytes.data.toList.drop position := by
  fun_induction ByteArray.toList.loop bytes position read with
  | case1 position read inside ih =>
      have within : position < bytes.data.toList.length := by simpa using inside
      have next : bytes.get! position = bytes.data.toList[position] := by
        rw [Array.getElem_toList]
        exact getElem!_pos bytes.data position inside
      rw [ih, next, List.drop_eq_getElem_cons within, List.reverse_cons, List.append_assoc]
      rfl
  | case2 position read outside =>
      have past : bytes.data.toList.length ≤ position := by simpa using outside
      rw [List.drop_eq_nil_of_le past, List.append_nil]

theorem toList_toUTF8 (text : String) : text.toUTF8.toList = encode text.toList := by
  rw [ByteArray.toList, toList_loop, List.reverse_nil, List.nil_append, List.drop_zero, ← bytes_eq]
  rfl

theorem encode_injective {first second : String}
    (same : encode first.toList = encode second.toList) : first = second := by
  rw [← bytes_eq, ← bytes_eq, bytes, bytes, Array.toList_inj] at same
  exact String.toByteArray_inj.mp (ByteArray.ext same)

end Utf8

namespace Literal

open C

theorem toNat_octalDigit (value : Nat) : (octalDigit value).toNat = '0'.toNat + value % 8 := by
  have all : ∀ digit < 8, (Char.ofNat ('0'.toNat + digit)).toNat = '0'.toNat + digit := by decide
  exact all (value % 8) (Nat.mod_lt value (by decide))

theorem isOctalDigit_octalDigit (value : Nat) : isOctalDigit (octalDigit value) = true := by
  have all : ∀ digit < 8, isOctalDigit (Char.ofNat ('0'.toNat + digit)) = true := by decide
  exact all (value % 8) (Nat.mod_lt value (by decide))

theorem octalValue_octalDigits {value : Nat} (small : value < 512) :
    octalValue [octalDigit (value / 64), octalDigit (value / 8), octalDigit value] = value := by
  simp only [octalValue, List.foldl_cons, List.foldl_nil, toNat_octalDigit, Nat.add_sub_cancel_left]
  omega

theorem eq_ofNat_of_code {c : Char} {byte : UInt8} (code : c.toNat = byte.toNat) :
    UInt8.ofNat c.toNat = byte := by
  rw [code, UInt8.ofNat_toNat]

theorem spells_escapeByte (byte : UInt8) : SpellsByte (escapeByte byte) byte := by
  have code : (Char.ofNat byte.toNat).toNat = byte.toNat := by
    rw [← Utf8.toNat_ofUInt8, Char.ofNat_toNat]
  unfold escapeByte
  dsimp only
  generalize Char.ofNat byte.toNat = c at code
  split
  iterate 6
    · rw [← eq_ofNat_of_code code]
      exact .simple rfl
  next c quote backslash _ _ _ mark =>
    split
    next range =>
      rw [UInt8.le_iff_toNat_le, UInt8.le_iff_toNat_le, ← code] at range
      rw [← eq_ofNat_of_code code]
      exact .plain range ⟨quote, backslash, mark⟩
    next =>
      have small := byte.toNat_lt
      have value : octalValue [octalDigit (byte.toNat / 64), octalDigit (byte.toNat / 8),
          octalDigit byte.toNat] = byte.toNat := octalValue_octalDigits (by omega)
      have digits : ∀ digit ∈ [octalDigit (byte.toNat / 64), octalDigit (byte.toNat / 8),
          octalDigit byte.toNat], isOctalDigit digit = true := by
        simp [isOctalDigit_octalDigit]
      have spelled := SpellsByte.octal digits (by rwa [value])
      rwa [value, UInt8.ofNat_toNat] at spelled

/-! Whole literals -/

theorem toList_string (text : String) :
    (string text).toList = '"' :: ((Utf8.encode text.toList).flatMap escapeByte ++ ['"']) := by
  rw [string, Utf8.toList_toUTF8]
  simp

theorem readBytes?_escaped (bytes : List UInt8) (rest : List Char) :
    readBytes? (bytes.flatMap escapeByte ++ '"' :: rest) = some (bytes, rest) := by
  induction bytes with
  | nil => simp [readBytes?]
  | cons byte more ih =>
      have spells := spells_escapeByte byte
      rw [List.flatMap_cons, List.append_assoc, readBytes?, if_neg (spells.head?_ne _)]
      split
      next none => simp [spells.readCharacter?] at none
      next found =>
        rw [spells.readCharacter?] at found
        cases found
        rw [ih]
        rfl

theorem quotesEscaped_escaped (bytes : List UInt8) :
    quotesEscaped (bytes.flatMap escapeByte) = true := by
  induction bytes with
  | nil => rfl
  | cons byte more ih => rw [List.flatMap_cons, (spells_escapeByte byte).quotesEscaped, ih]

theorem isPrintable_escaped (bytes : List UInt8) :
    ∀ c ∈ bytes.flatMap escapeByte, IsPrintable c := by
  intro c member
  obtain ⟨byte, _, spelled⟩ := List.mem_flatMap.mp member
  exact (spells_escapeByte byte).isPrintable c spelled

theorem apart_escaped (bytes : List UInt8) :
    (bytes.flatMap escapeByte ++ ['"']).IsChain Apart ∧
      (bytes.flatMap escapeByte ++ ['"']).head? ≠ some '?' := by
  induction bytes with
  | nil => simp
  | cons byte more ih =>
      obtain ⟨inside, first⟩ := (spells_escapeByte byte).apart
      rw [List.flatMap_cons, List.append_assoc]
      constructor
      · refine List.isChain_append.mpr ⟨inside, ih.1, ?_⟩
        rintro left _ right next ⟨_, rfl⟩
        exact ih.2 next
      · cases spelled : escapeByte byte with
        | nil => exact ih.2
        | cons c others => simpa [spelled] using first

theorem bytesOfLiteral?_string (text : String) :
    bytesOfLiteral? (string text) = some (Utf8.encode text.toList) := by
  simp only [bytesOfLiteral?, toList_string, readBytes?_escaped]

end Literal

/-- The literal of a text is quoted, printable and free of trigraphs, and C reads the bytes of the text
from it. -/
theorem string_literals_read_back :
    (∀ text, ∃ inner, (Literal.string text).toList = '"' :: (inner ++ ['"']) ∧
      C.quotesEscaped inner = true ∧
      (∀ c ∈ (Literal.string text).toList, C.IsPrintable c) ∧
      (Literal.string text).toList.IsChain C.Apart ∧
      C.bytesOfLiteral? (Literal.string text) = some (Utf8.encode text.toList)) ∧
    Function.Injective Literal.string := by
  refine ⟨fun text => ?_, ?_⟩
  · refine ⟨_, Literal.toList_string text, Literal.quotesEscaped_escaped _, ?_, ?_,
      Literal.bytesOfLiteral?_string text⟩
    · intro c member
      rw [Literal.toList_string, List.mem_cons, List.mem_append, List.mem_singleton] at member
      rcases member with rfl | inner | rfl
      · decide
      · exact Literal.isPrintable_escaped _ c inner
      · decide
    · rw [Literal.toList_string]
      exact List.isChain_cons.mpr ⟨by simp [C.Apart], (Literal.apart_escaped _).1⟩
  · intro first second same
    have bytes := Literal.bytesOfLiteral?_string first
    rw [same, Literal.bytesOfLiteral?_string second] at bytes
    exact Utf8.encode_injective (Option.some.inj bytes).symm

end BytecodeToC
