import BytecodeToC.Json.Reader
import BytecodeToC.Proofs.Digits
import Mathlib.Algebra.Group.Int.Defs
import Mathlib.Algebra.Group.Nat.Defs

/-!
Compact JSON texts read back. Strings and keys may hold any characters, since the writer escapes what
the reader would not take as it is; numbers are integers of 64 bits.
-/

namespace BytecodeToC

namespace Json

/-! Strings -/

theorem unitOfHex?_hexDigit : ∀ unit < 0x20,
    unitOfHex? '0' '0' (hexDigit (unit / 16)) (hexDigit unit) = some unit := by
  decide

theorem readPieces?_plain {c : Char} (quote : c ≠ '"') (backslash : c ≠ '\\')
    (plain : ¬c.toNat < 0x20) (rest : List Char) :
    readPieces? (c :: rest) =
      (readPieces? rest).map fun (pieces, after) => (.char c :: pieces, after) := by
  rw [readPieces?, if_neg plain]
  · cases readPieces? rest <;> rfl
  all_goals simp [quote, backslash]

theorem readPieces?_escapeChar (c : Char) (rest : List Char) :
    readPieces? (escapeChar c ++ rest) =
      (readPieces? rest).map fun (pieces, after) => (.char c :: pieces, after) := by
  unfold escapeChar
  split
  iterate 7 · cases read : readPieces? rest <;> simp [readPieces?, simpleEscape?, read]
  next quote backslash _ _ _ _ _ =>
    split
    next control =>
      have unit := unitOfHex?_hexDigit c.toNat control
      have piece : Piece.ofUnit c.toNat = .char c := by
        rw [Piece.ofUnit, if_neg (by omega), Char.ofNat_toNat]
      cases read : readPieces? rest <;> simp [readPieces?, unit, piece, read]
    next plain => exact readPieces?_plain quote backslash plain rest

theorem readPieces?_escaped (chars rest : List Char) :
    readPieces? (chars.flatMap escapeChar ++ '"' :: rest) = some (chars.map .char, rest) := by
  induction chars with
  | nil => rfl
  | cons c more ih =>
      rw [List.flatMap_cons, List.append_assoc, readPieces?_escapeChar, ih]
      rfl

theorem joinPieces?_chars (chars : List Char) : joinPieces? (chars.map .char) = some chars := by
  induction chars with
  | nil => rfl
  | cons c more ih =>
      rw [List.map_cons, joinPieces?, ih]
      rfl

theorem readString?_escaped (text : String) (rest : List Char) :
    readString? (text.toList.flatMap escapeChar ++ '"' :: rest) = some (some text, rest) := by
  simp [readString?, readPieces?_escaped, joinPieces?_chars]

theorem toList_quote (text : String) :
    (quote text).toList = '"' :: (text.toList.flatMap escapeChar ++ ['"']) := by
  simp [quote]

/-! Numbers -/

def Stops (rest : List Char) : Prop :=
  ∀ c ∈ rest.head?, c.isDigit = false ∧ c ≠ '.' ∧ c ≠ 'e' ∧ c ≠ 'E'

instance (rest : List Char) : Decidable (Stops rest) :=
  inferInstanceAs (Decidable (∀ c ∈ rest.head?, _))

theorem readWhole?_toDigits (value : Nat) {rest : List Char} (stops : Stops rest) :
    readWhole? (Nat.toDigits 10 value ++ rest) = some (Nat.toDigits 10 value, rest) := by
  have ends : ∀ c ∈ rest.head?, c.isDigit = false := fun c member => (stops c member).1
  by_cases positive : 0 < value
  · obtain ⟨digit, others, shape, _⟩ := exists_digit value
    have first : ∀ more, Nat.toDigits 10 value ++ rest ≠ '0' :: more := by
      intro more zero
      have leading := head?_toDigits positive
      rw [shape] at zero leading
      cases zero
      contradiction
    rw [readWhole?, readDigits, takeWhile_toDigits value ends, dropWhile_toDigits value ends, shape]
    exact first
  · obtain rfl : value = 0 := by omega
    rfl

theorem ofDigits_toDigits (value : Nat) : ofDigits (Nat.toDigits 10 value) = value := by
  have read : Nat.ofDigitChars 10 (Nat.toDigits 10 value) 0 = value := by simp
  rw [Nat.ofDigitChars_eq_foldl] at read
  simpa [ofDigits, digitValue, Nat.mul_comm] using read

theorem readFraction?_of_stops {rest : List Char} (stops : Stops rest) :
    readFraction? rest = some (none, rest) := by
  unfold readFraction?
  split
  next => exact absurd rfl (stops '.' rfl).2.1
  next => rfl

theorem readExponent?_of_stops {rest : List Char} (stops : Stops rest) :
    readExponent? rest = some (none, rest) := by
  cases rest with
  | nil => rfl
  | cons c more =>
      have power := (stops c rfl).2.2
      simp [readExponent?, power]

theorem readNumber?_toDigits (value : Nat) {rest : List Char} (stops : Stops rest) :
    readNumber? (Nat.toDigits 10 value ++ rest) =
      some (.number (Number.ofParts? false (Nat.toDigits 10 value) none none), rest) := by
  obtain ⟨digit, others, shape, known⟩ := exists_digit value
  have sign : digit ≠ '-' := by
    rintro rfl
    simp at known
  have whole := readWhole?_toDigits value stops
  rw [shape] at whole ⊢
  rw [List.cons_append] at whole ⊢
  simp [readNumber?, sign, whole, readFraction?_of_stops stops, readExponent?_of_stops stops]

theorem readNumber?_negated (value : Nat) {rest : List Char} (stops : Stops rest) :
    readNumber? ('-' :: (Nat.toDigits 10 value ++ rest)) =
      some (.number (Number.ofParts? true (Nat.toDigits 10 value) none none), rest) := by
  simp [readNumber?, readWhole?_toDigits value stops, readFraction?_of_stops stops,
    readExponent?_of_stops stops]

theorem ofParts?_toDigits {magnitude : Nat} (small : magnitude < 2 ^ 64) :
    Number.ofParts? false (Nat.toDigits 10 magnitude) none none = some (.integer magnitude) := by
  have fits : decide (magnitude < wordLimit) = true := decide_eq_true small
  simp only [Number.ofParts?, ofDigits_toDigits, fits]
  rfl

theorem ofParts?_negated {magnitude : Nat} (positive : 0 < magnitude) (small : magnitude ≤ 2 ^ 63) :
    Number.ofParts? true (Nat.toDigits 10 magnitude) none none = some (.integer (-magnitude)) := by
  have fits : decide (magnitude ≤ wordLimit / 2) = true := decide_eq_true small
  simp only [Number.ofParts?, ofDigits_toDigits, fits, decide_eq_true positive]
  rfl

theorem toList_ofNat (magnitude : Nat) :
    (ofInt (.ofNat magnitude)).compact.toList = Nat.toDigits 10 magnitude := by
  simp [ofInt, compact, Number.text, toString, Int.repr]

theorem toList_negSucc (magnitude : Nat) :
    (ofInt (.negSucc magnitude)).compact.toList = '-' :: Nat.toDigits 10 (magnitude + 1) := by
  simp [ofInt, compact, Number.text, toString, Int.repr]

theorem readNumber?_ofInt {value : Int} (least : -2 ^ 63 ≤ value) (greatest : value < 2 ^ 64)
    {rest : List Char} (stops : Stops rest) :
    readNumber? ((ofInt value).compact.toList ++ rest) = some (ofInt value, rest) := by
  cases value with
  | ofNat magnitude =>
      have small : magnitude < 2 ^ 64 := by
        rw [Int.ofNat_eq_natCast] at greatest
        omega
      rw [toList_ofNat, readNumber?_toDigits magnitude stops, ofParts?_toDigits small]
      rfl
  | negSucc magnitude =>
      have small : magnitude + 1 ≤ 2 ^ 63 := by omega
      rw [toList_negSucc, List.cons_append, readNumber?_negated (magnitude + 1) stops,
        ofParts?_negated (Nat.succ_pos magnitude) small]
      rfl

/-! Values -/

/-- A value whose text reads back, whatever follows that cannot be part of a number. -/
def Readable (json : Json) : Prop :=
  ∀ (fuel : Nat) (rest : List Char), json.compact.toList.length < fuel → Stops rest →
    readValue? fuel (json.compact.toList ++ rest) = some (json, rest)

@[simp] theorem skipBlanks_cons {c : Char} {rest : List Char} (visible : isBlank c = false) :
    skipBlanks (c :: rest) = c :: rest := by
  simp [skipBlanks, visible]

theorem readable_string (text : String) : Readable (ofString text) := by
  intro fuel rest enough _
  obtain ⟨fuel, rfl⟩ := Nat.exists_eq_add_of_lt enough
  have quoted : (ofString text).compact.toList = '"' :: (text.toList.flatMap escapeChar ++ ['"']) := by
    simp [ofString, compact, toList_quote]
  rw [quoted]
  simp [readValue?, readString?_escaped, isBlank, ofString]

theorem readItems?_compact {items : List Json} (readable : ∀ item ∈ items, Readable item)
    (nonempty : items ≠ []) {fuel : Nat} (enough : (compactItems items).toList.length + 1 < fuel)
    (rest : List Char) :
    readItems? fuel ((compactItems items).toList ++ ']' :: rest) = some (items, rest) := by
  -- An item takes one unit of fuel and at least its comma of the text.
  induction items generalizing fuel with
  | nil => contradiction
  | cons item others ih =>
      obtain ⟨here, later⟩ := List.forall_mem_cons.mp readable
      obtain ⟨fuel, rfl⟩ : ∃ less, fuel = less + 1 := ⟨fuel - 1, by omega⟩
      cases others with
      | nil =>
          have first := here fuel (']' :: rest) (by simpa [compactItems] using enough) (by simp [Stops])
          simp [readItems?, compactItems, first, isBlank]
      | cons next more =>
          have spelled : (compactItems (item :: next :: more)).toList =
              item.compact.toList ++ ',' :: (compactItems (next :: more)).toList := by
            simp [compactItems]
          rw [spelled] at enough ⊢
          simp only [List.length_append, List.length_cons] at enough
          have first := here fuel (',' :: ((compactItems (next :: more)).toList ++ ']' :: rest))
            (by omega) (by simp [Stops])
          have shorter : (compactItems (next :: more)).toList.length + 1 < fuel := by omega
          have others := ih later (by simp) shorter
          simp [readItems?, first, others, isBlank]

def keyed (members : List (String × Json)) : List (Option String × Json) :=
  members.map fun (key, value) => (some key, value)

theorem ofMembers_eq (members : List (String × Json)) : ofMembers members = .object (keyed members) :=
  rfl

theorem readMembers?_compact {members : List (String × Json)}
    (readable : ∀ member ∈ members, Readable member.2) (nonempty : members ≠ []) {fuel : Nat}
    (enough : (compactMembers (keyed members)).toList.length + 1 < fuel) (rest : List Char) :
    readMembers? fuel ((compactMembers (keyed members)).toList ++ '\x7d' :: rest) =
      some (keyed members, rest) := by
  induction members generalizing fuel with
  | nil => contradiction
  | cons member others ih =>
      obtain ⟨key, value⟩ := member
      obtain ⟨(here : Readable value), later⟩ := List.forall_mem_cons.mp readable
      obtain ⟨fuel, rfl⟩ : ∃ less, fuel = less + 1 := ⟨fuel - 1, by omega⟩
      cases others with
      | nil =>
          have spelled : (compactMembers (keyed [(key, value)])).toList =
              '"' :: (key.toList.flatMap escapeChar ++ '"' :: ':' :: value.compact.toList) := by
            simp [keyed, compactMembers, toList_quote]
          rw [spelled] at enough ⊢
          simp only [List.length_append, List.length_cons] at enough
          have first := here fuel ('\x7d' :: rest) (by omega) (by simp [Stops])
          simp [readMembers?, readString?_escaped, first, isBlank, keyed]
      | cons next more =>
          have spelled : (compactMembers (keyed ((key, value) :: next :: more))).toList =
              '"' :: (key.toList.flatMap escapeChar ++ '"' :: ':' :: (value.compact.toList ++
                ',' :: (compactMembers (keyed (next :: more))).toList)) := by
            simp [keyed, compactMembers, toList_quote]
          rw [spelled] at enough ⊢
          simp only [List.length_append, List.length_cons] at enough
          have first := here fuel
            (',' :: ((compactMembers (keyed (next :: more))).toList ++ '\x7d' :: rest))
            (by omega) (by simp [Stops])
          have shorter : (compactMembers (keyed (next :: more))).toList.length + 1 < fuel := by omega
          have others := ih later (by simp) shorter
          simp [readMembers?, readString?_escaped, first, others, isBlank]
          rfl

/-- Values without missing strings and keys whose numbers are integers of 64 bits. -/
inductive IsPlain : Json → Prop
  | null : IsPlain .null
  | bool (value : Bool) : IsPlain (.bool value)
  | integer {value : Int} (least : -2 ^ 63 ≤ value) (greatest : value < 2 ^ 64) :
      IsPlain (ofInt value)
  | string (text : String) : IsPlain (ofString text)
  | array {items : List Json} (all : ∀ item ∈ items, IsPlain item) : IsPlain (.array items)
  | object {members : List (String × Json)} (all : ∀ member ∈ members, IsPlain member.2) :
      IsPlain (ofMembers members)

theorem ne_of_initial {c special : Char} (initial : c.isDigit = true ∨ c = '-')
    (notDigit : special.isDigit = false) (notMinus : special ≠ '-') : c ≠ special := by
  rintro rfl
  rcases initial with digit | minus
  · simp [digit] at notDigit
  · exact notMinus minus

theorem isBlank_of_initial {c : Char} (initial : c.isDigit = true ∨ c = '-') : isBlank c = false := by
  have other : ∀ special : Char, special.isDigit = false → special ≠ '-' → c ≠ special :=
    fun special => ne_of_initial initial
  simp [isBlank, other ' ' rfl (by decide), other '\n' rfl (by decide), other '\t' rfl (by decide),
    other '\r' rfl (by decide)]

theorem readValue?_number {c : Char} (initial : c.isDigit = true ∨ c = '-') (fuel : Nat)
    (more : List Char) : readValue? (fuel + 1) (c :: more) = readNumber? (c :: more) := by
  rw [readValue?, skipBlanks_cons (isBlank_of_initial initial)]
  split
  -- Quotes, brackets, braces and words do not begin with a digit or a sign.
  iterate 6
    next same => exact absurd (List.cons.inj same).1 (ne_of_initial initial rfl (by decide))
  next => rfl

theorem exists_compact_ofInt (value : Int) :
    ∃ c more, (ofInt value).compact.toList = c :: more ∧ (c.isDigit = true ∨ c = '-') := by
  cases value with
  | ofNat magnitude =>
      obtain ⟨digit, others, shape, known⟩ := exists_digit magnitude
      exact ⟨digit, others, (toList_ofNat magnitude).trans shape, .inl known⟩
  | negSucc magnitude => exact ⟨'-', _, toList_negSucc magnitude, .inr rfl⟩

theorem readable_int {value : Int} (least : -2 ^ 63 ≤ value) (greatest : value < 2 ^ 64) :
    Readable (ofInt value) := by
  intro fuel rest enough stops
  obtain ⟨fuel, rfl⟩ := Nat.exists_eq_add_of_lt enough
  have read := readNumber?_ofInt least greatest stops
  obtain ⟨c, more, shape, initial⟩ := exists_compact_ofInt value
  rw [shape] at read ⊢
  exact (readValue?_number initial _ _).trans read

def Begins (text : List Char) : Prop :=
  ∃ c, text.head? = some c ∧ isBlank c = false ∧ c ≠ ']'

namespace IsPlain

theorem begins {json : Json} (plain : json.IsPlain) : Begins json.compact.toList := by
  cases plain with
  | null => exact ⟨'n', by simp [compact], rfl, by decide⟩
  | bool value =>
      cases value
      · exact ⟨'f', by simp [compact], rfl, by decide⟩
      · exact ⟨'t', by simp [compact], rfl, by decide⟩
  | integer least greatest =>
      obtain ⟨c, more, shape, initial⟩ := exists_compact_ofInt _
      exact ⟨c, by rw [shape]; rfl, isBlank_of_initial initial, ne_of_initial initial rfl (by decide)⟩
  | string text => exact ⟨'"', by simp [ofString, compact, toList_quote], rfl, by decide⟩
  | array all => exact ⟨'[', by simp [compact], rfl, by decide⟩
  | object all => exact ⟨'\x7b', by simp [ofMembers, compact], rfl, by decide⟩

end IsPlain

theorem Begins.compactItems {item : Json} (begins : Begins item.compact.toList) (others : List Json) :
    Begins (compactItems (item :: others)).toList := by
  obtain ⟨c, first, visible, opened⟩ := begins
  refine ⟨c, ?_, visible, opened⟩
  cases others <;> simp [Json.compactItems, first]

theorem readable_array {items : List Json} (plain : ∀ item ∈ items, item.IsPlain)
    (readable : ∀ item ∈ items, Readable item) : Readable (.array items) := by
  intro fuel rest enough _
  obtain ⟨fuel, rfl⟩ : ∃ less, fuel = less + 1 := ⟨fuel - 1, by omega⟩
  have spelled : (array items).compact.toList = '[' :: ((compactItems items).toList ++ [']']) := by
    simp [compact]
  rw [spelled] at enough ⊢
  rw [List.cons_append, List.append_assoc, readValue?, skipBlanks_cons rfl]
  cases items with
  | nil => simp [compactItems, isBlank]
  | cons item others =>
      obtain ⟨c, first, visible, opened⟩ := (plain item List.mem_cons_self).begins.compactItems others
      obtain ⟨more, shape⟩ := List.head?_eq_some_iff.mp first
      have inside : (compactItems (item :: others)).toList.length + 1 < fuel := by
        simp only [List.length_cons, List.length_append, List.length_nil] at enough
        omega
      have read := readItems?_compact readable (by simp) inside rest
      rw [shape, List.cons_append] at read
      simp [shape, visible, opened, read]

theorem readable_object {members : List (String × Json)}
    (readable : ∀ member ∈ members, Readable member.2) : Readable (ofMembers members) := by
  intro fuel rest enough _
  obtain ⟨fuel, rfl⟩ : ∃ less, fuel = less + 1 := ⟨fuel - 1, by omega⟩
  have spelled : (ofMembers members).compact.toList =
      '\x7b' :: ((compactMembers (keyed members)).toList ++ ['\x7d']) := by
    simp [ofMembers, compact, keyed]
  rw [spelled] at enough ⊢
  rw [List.cons_append, List.append_assoc, readValue?, skipBlanks_cons rfl]
  cases members with
  | nil => simp [keyed, compactMembers, isBlank, ofMembers]
  | cons member others =>
      have first : (compactMembers (keyed (member :: others))).toList.head? = some '"' := by
        cases others <;> simp [keyed, compactMembers, toList_quote]
      obtain ⟨more, shape⟩ := List.head?_eq_some_iff.mp first
      have inside : (compactMembers (keyed (member :: others))).toList.length + 1 < fuel := by
        simp only [List.length_cons, List.length_append, List.length_nil] at enough
        omega
      have read := readMembers?_compact readable (by simp) inside rest
      rw [shape, List.cons_append] at read
      rw [ofMembers_eq]
      simp [shape, isBlank, read]

theorem IsPlain.readable {json : Json} (plain : json.IsPlain) : json.Readable := by
  induction plain with
  | null =>
      intro fuel rest enough _
      obtain ⟨fuel, rfl⟩ := Nat.exists_eq_add_of_lt enough
      simp [readValue?, compact, isBlank, afterWord?]
  | bool value =>
      intro fuel rest enough _
      obtain ⟨fuel, rfl⟩ := Nat.exists_eq_add_of_lt enough
      cases value <;> simp [readValue?, compact, isBlank, afterWord?]
  | integer least greatest => exact readable_int least greatest
  | string text => exact readable_string text
  | array all ih => exact readable_array all ih
  | object all ih => exact readable_object ih

theorem parse?_compact {json : Json} (plain : json.IsPlain) : parse? json.compact = some json := by
  have read := plain.readable (2 * json.compact.toList.length + 1) [] (by omega) (by simp [Stops])
  rw [List.append_nil] at read
  simp [parse?, read, skipBlanks]

end Json

end BytecodeToC
