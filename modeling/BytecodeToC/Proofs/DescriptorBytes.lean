import BytecodeToC.Proofs.Descriptors
import Mathlib.Data.List.TakeWhile

/-!
Reading descriptors by byte offsets. Every character that a descriptor gives a meaning to is encoded
as one byte below 128, and no such byte is part of a longer encoding. A reader that looks at single
bytes therefore cuts the text only between characters, whatever the text is, and it reads what the
readers on characters read.
-/

namespace BytecodeToC

/-! Encodings -/

namespace Utf8

def encode (chars : List Char) : List UInt8 := chars.flatMap String.utf8EncodeChar

def bytes (text : String) : List UInt8 := text.toByteArray.data.toList

theorem bytes_ofList (chars : List Char) : bytes (String.ofList chars) = encode chars := by
  rw [bytes, String.toByteArray_ofList, List.utf8Encode, List.data_toByteArray]
  rfl

theorem bytes_eq (text : String) : bytes text = encode text.toList := by
  rw [← bytes_ofList, String.ofList_toList]

theorem utf8ByteSize_eq (text : String) : text.utf8ByteSize = (encode text.toList).length := by
  rw [← bytes_eq]
  rfl

@[simp] theorem encode_append (front back : List Char) :
    encode (front ++ back) = encode front ++ encode back :=
  List.flatMap_append

@[simp] theorem encode_cons (c : Char) (rest : List Char) :
    encode (c :: rest) = String.utf8EncodeChar c ++ encode rest :=
  List.flatMap_cons

theorem length_encode_cons (c : Char) (rest : List Char) :
    (encode (c :: rest)).length = c.utf8Size + (encode rest).length := by
  rw [encode_cons, List.length_append, String.length_utf8EncodeChar]

theorem length_encode_pos {chars : List Char} (written : chars ≠ []) : 0 < (encode chars).length := by
  obtain ⟨c, rest, rfl⟩ := List.exists_cons_of_ne_nil written
  have positive := c.utf8Size_pos
  rw [length_encode_cons]
  omega

def letterAt? (text : String) (offset : Nat) : Option Char := (bytes text)[offset]?.map Char.ofUInt8

theorem toNat_ofUInt8 (byte : UInt8) : (Char.ofUInt8 byte).toNat = byte.toNat := by
  exact byte.toNat_toUInt32

theorem high_of_mem_utf8EncodeChar {c : Char} (long : c.utf8Size ≠ 1) {byte : UInt8}
    (member : byte ∈ String.utf8EncodeChar c) : 128 ≤ byte.toNat := by
  have wide : 127 < c.val.toNat := by
    simpa [Char.utf8Size_eq_one_iff, UInt32.le_iff_toNat_le] using long
  simp only [String.utf8EncodeChar, Nat.not_le.mpr wide, ↓reduceIte] at member
  split at member
  · simp only [List.mem_cons, List.not_mem_nil, or_false] at member
    rcases member with rfl | rfl <;> simp <;> omega
  split at member
  · simp only [List.mem_cons, List.not_mem_nil, or_false] at member
    rcases member with rfl | rfl | rfl <;> simp <;> omega
  · simp only [List.mem_cons, List.not_mem_nil, or_false] at member
    rcases member with rfl | rfl | rfl | rfl <;> simp <;> omega

theorem ofUInt8_of_utf8Size {c : Char} (short : c.utf8Size = 1) : Char.ofUInt8 c.val.toUInt8 = c := by
  have small : c.val.toNat ≤ 127 := by
    simpa [UInt32.le_iff_toNat_le] using Char.utf8Size_eq_one_iff.mp short
  apply Char.toNat_inj.mp
  rw [toNat_ofUInt8, UInt32.toNat_toUInt8, Nat.mod_eq_of_lt (by omega)]
  rfl

/-! Offsets between characters -/

/-- Those characters of the text begin at a byte offset. -/
def Ahead (text : String) (offset : Nat) (rest : List Char) : Prop :=
  ∃ front, text.toList = front ++ rest ∧ (encode front).length = offset

theorem ahead_zero (text : String) : Ahead text 0 text.toList := ⟨[], rfl, rfl⟩

namespace Ahead

variable {text : String} {offset : Nat} {rest : List Char}

theorem skip {front : List Char} (ahead : Ahead text offset (front ++ rest)) :
    Ahead text (offset + (encode front).length) rest := by
  obtain ⟨before, spelled, rfl⟩ := ahead
  exact ⟨before ++ front, by simp [spelled], by simp⟩

theorem next {c : Char} (ahead : Ahead text offset (c :: rest)) (short : c.utf8Size = 1) :
    Ahead text (offset + 1) rest := by
  have skipped : Ahead text (offset + (encode [c]).length) rest := skip ahead
  simpa [encode, String.length_utf8EncodeChar, short] using skipped

theorem length_bytes (ahead : Ahead text offset rest) :
    (bytes text).length = offset + (encode rest).length := by
  obtain ⟨front, spelled, rfl⟩ := ahead
  rw [bytes_eq, spelled, encode_append, List.length_append]

theorem offset_eq (ahead : Ahead text offset rest) :
    text.utf8ByteSize - (String.ofList rest).utf8ByteSize = offset := by
  have total := ahead.length_bytes
  rw [utf8ByteSize_eq, utf8ByteSize_eq, String.toList_ofList, ← bytes_eq]
  omega

theorem letterAt?_nil (ahead : Ahead text offset []) : letterAt? text offset = none := by
  have total := ahead.length_bytes
  have past : (bytes text)[offset]? = none := List.getElem?_eq_none (by simp [encode] at total; omega)
  rw [letterAt?, past]
  rfl

/-- The byte where a character begins is its code, or both are at least 128. -/
theorem letterAt? {c : Char} (ahead : Ahead text offset (c :: rest)) :
    ∃ letter, letterAt? text offset = some letter ∧
      (letter = c ∨ 128 ≤ c.toNat ∧ 128 ≤ letter.toNat) := by
  obtain ⟨front, spelled, rfl⟩ := ahead
  have coding : String.utf8EncodeChar c ≠ [] := by
    rw [← List.length_pos_iff, String.length_utf8EncodeChar]
    exact c.utf8Size_pos
  obtain ⟨first, others, coded⟩ := List.exists_cons_of_ne_nil coding
  have found : (bytes text)[(encode front).length]? = some first := by
    simp [bytes_eq, spelled, coded]
  refine ⟨Char.ofUInt8 first, by rw [Utf8.letterAt?, found]; rfl, ?_⟩
  by_cases short : c.utf8Size = 1
  · rw [String.utf8EncodeChar_eq_singleton short] at coded
    cases coded
    exact .inl (ofUInt8_of_utf8Size short)
  · have wide : ¬c.val.toNat ≤ 127 := by
      simpa [Char.utf8Size_eq_one_iff, UInt32.le_iff_toNat_le] using short
    have high := high_of_mem_utf8EncodeChar short (by rw [coded]; exact List.mem_cons_self)
    refine .inr ⟨?_, by rwa [toNat_ofUInt8]⟩
    have code : c.toNat = c.val.toNat := rfl
    omega

end Ahead

theorem exists_ahead_of_low {chars : List Char} {offset : Nat} {byte : UInt8}
    (found : (encode chars)[offset]? = some byte) (low : byte.toNat < 128) :
    ∃ front rest, chars = front ++ Char.ofUInt8 byte :: rest ∧ (encode front).length = offset := by
  induction chars generalizing offset with
  | nil => simp [encode] at found
  | cons c rest ih =>
      by_cases inside : offset < (String.utf8EncodeChar c).length
      · rw [encode_cons, List.getElem?_append_left inside] at found
        have member := List.mem_of_getElem? found
        have short : c.utf8Size = 1 := by
          by_contra long
          have high := high_of_mem_utf8EncodeChar long member
          omega
        rw [String.length_utf8EncodeChar, short] at inside
        obtain rfl : offset = 0 := by omega
        rw [String.utf8EncodeChar_eq_singleton short] at found
        cases found
        exact ⟨[], rest, by rw [ofUInt8_of_utf8Size short]; rfl, rfl⟩
      · have past := Nat.le_of_not_lt inside
        rw [encode_cons, List.getElem?_append_right past] at found
        obtain ⟨front, after, rfl, size⟩ := ih found
        refine ⟨c :: front, after, rfl, ?_⟩
        rw [encode_cons, List.length_append, size, Nat.add_sub_cancel' past]

theorem exists_ahead_of_letterAt? {text : String} {offset : Nat} {c : Char}
    (found : letterAt? text offset = some c) (low : c.toNat < 128) :
    ∃ rest, Ahead text offset (c :: rest) := by
  obtain ⟨byte, here, rfl⟩ := Option.map_eq_some_iff.mp found
  rw [bytes_eq] at here
  rw [toNat_ofUInt8] at low
  obtain ⟨front, rest, spelled, size⟩ := exists_ahead_of_low here low
  exact ⟨rest, front, spelled, size⟩

theorem dropBytes?_eq_some_iff {text rest : List Char} {offset : Nat} :
    ResultType.dropBytes? offset text = some rest ↔
      ∃ front, text = front ++ rest ∧ (encode front).length = offset := by
  fun_induction ResultType.dropBytes? offset text with
  | case1 text =>
      constructor
      · rintro same
        cases same
        exact ⟨[], rfl, rfl⟩
      · rintro ⟨front, rfl, empty⟩
        have none : front = [] := by
          by_contra written
          have positive := length_encode_pos written
          omega
        rw [none, List.nil_append]
  | case2 count =>
      simp only [reduceCtorEq, false_iff]
      rintro ⟨front, empty, size⟩
      obtain ⟨rfl, -⟩ := List.append_eq_nil_iff.mp empty.symm
      simp [encode] at size
  | case3 count c others positive fits ih =>
      rw [ih]
      constructor
      · rintro ⟨front, rfl, size⟩
        refine ⟨c :: front, rfl, ?_⟩
        rw [length_encode_cons, size, Nat.add_sub_cancel' fits]
      · rintro ⟨front, spelled, size⟩
        cases front with
        | nil => exact absurd size.symm positive
        | cons first front =>
            cases spelled
            refine ⟨front, rfl, ?_⟩
            rw [length_encode_cons] at size
            exact Nat.eq_sub_of_add_eq' size
  | case4 count c others positive beyond =>
      simp only [reduceCtorEq, false_iff]
      rintro ⟨front, spelled, size⟩
      cases front with
      | nil => exact positive size.symm
      | cons first front =>
          cases spelled
          rw [length_encode_cons] at size
          omega

theorem ahead_iff {text : String} {offset : Nat} {rest : List Char} :
    Ahead text offset rest ↔ ResultType.dropBytes? offset text.toList = some rest :=
  dropBytes?_eq_some_iff.symm

end Utf8

/-! Readers that move byte offsets -/

namespace DescriptorBytes

open Utf8

structure BadOffset where
  offset : Nat
deriving DecidableEq, Repr

def charsFrom (text : String) (start : Nat) : Except BadOffset (List Char) :=
  match ResultType.dropBytes? start text.toList with
  | some rest => .ok rest
  | none => .error { offset := start }

def slice (text : String) (start stop : Nat) : Except BadOffset String := do
  let front ← charsFrom text start
  let back ← charsFrom text stop
  if start ≤ stop then .ok (String.ofList (front.take (front.length - back.length)))
  else .error { offset := stop }

def semicolon? : List Char → Option Nat
  | [] => none
  | ';' :: _ => some 0
  | c :: rest => (semicolon? rest).map (c.utf8Size + ·)

def typeAt (text : String) (offset : Nat) : Except BadOffset (Option (ResultType × Nat)) :=
  match _found : letterAt? text offset with
  | none => .ok none
  | some 'V' => .ok (some (none, offset + 1))
  | some 'L' => do
    match semicolon? (← charsFrom text offset) with
    | none => .ok none
    | some distance =>
      let stop := distance + offset
      if stop = offset + 1 then .ok none
      else
        let name ← slice text (offset + 1) stop
        .ok (some (some (.reference name), stop + 1))
  | some '[' => do
    match ← typeAt text (offset + 1) with
    | some (some element, next) => .ok (some (some (.array element), next))
    | _ => .ok none
  | some letter =>
    .ok ((Primitive.ofLetter? letter).map fun kind => (some (.primitive kind), offset + 1))
termination_by (bytes text).length - offset
decreasing_by
  obtain ⟨byte, here, _⟩ := Option.map_eq_some_iff.mp _found
  have inside := (List.getElem?_eq_some_iff.mp here).1
  omega

section Slices

variable {text : String} {offset : Nat} {rest : List Char}

theorem charsFrom_of_ahead (ahead : Ahead text offset rest) : charsFrom text offset = .ok rest := by
  rw [charsFrom, ahead_iff.mp ahead]

theorem slice_of_ahead {middle : List Char} (ahead : Ahead text offset (middle ++ rest)) :
    slice text offset (offset + (encode middle).length) = .ok (String.ofList middle) := by
  rw [slice, charsFrom_of_ahead ahead, charsFrom_of_ahead ahead.skip]
  simp [bind, Except.bind]

theorem semicolon?_of_notMem {chars : List Char} (absent : ';' ∉ chars) : semicolon? chars = none := by
  induction chars with
  | nil => rfl
  | cons c rest ih =>
      obtain ⟨other, later⟩ := not_or.mp fun either => absent (List.mem_cons.mpr either)
      rw [semicolon?, ih later]
      · rfl
      · exact fun same => other same.symm

theorem semicolon?_append {name : List Char} (absent : ';' ∉ name) (rest : List Char) :
    semicolon? (name ++ ';' :: rest) = some (encode name).length := by
  induction name with
  | nil => rfl
  | cons c name ih =>
      obtain ⟨other, later⟩ := not_or.mp fun either => absent (List.mem_cons.mpr either)
      rw [List.cons_append, semicolon?, ih later, length_encode_cons]
      · rfl
      · exact fun same => other same.symm

end Slices

section TypeAt

variable {text : String} {offset : Nat}

theorem typeAt_none (found : letterAt? text offset = none) : typeAt text offset = .ok none := by
  rw [typeAt]
  split <;> simp_all

theorem typeAt_void (found : letterAt? text offset = some 'V') :
    typeAt text offset = .ok (some (none, offset + 1)) := by
  rw [typeAt]
  split <;> simp_all

theorem typeAt_array (found : letterAt? text offset = some '[') :
    typeAt text offset = (do
      match ← typeAt text (offset + 1) with
      | some (some element, next) => .ok (some (some (.array element), next))
      | _ => .ok none) := by
  rw [typeAt]
  split <;> simp_all

theorem typeAt_letter {letter : Char} (found : letterAt? text offset = some letter)
    (void : 'V' ≠ letter) (reference : 'L' ≠ letter) (array : '[' ≠ letter) :
    typeAt text offset =
      .ok ((Primitive.ofLetter? letter).map fun kind => (some (.primitive kind), offset + 1)) := by
  rw [typeAt]
  split <;> simp_all

theorem typeAt_class (found : letterAt? text offset = some 'L') :
    typeAt text offset = (do
      match semicolon? (← charsFrom text offset) with
      | none => .ok none
      | some distance =>
        if distance + offset = offset + 1 then .ok none
        else
          let name ← slice text (offset + 1) (distance + offset)
          .ok (some (some (.reference name), distance + offset + 1))) := by
  rw [typeAt]
  split <;> simp_all

def stoppedAt {α : Type} (text : String) (found : Option (α × List Char)) : Option (α × Nat) :=
  found.map fun (value, after) =>
    (value, text.utf8ByteSize - (String.ofList after).utf8ByteSize)

@[simp] theorem stoppedAt_none {α : Type} : stoppedAt text (none : Option (α × List Char)) = none :=
  rfl

theorem stoppedAt_some {α : Type} {value : α} {after : List Char} (ahead : Ahead text offset after) :
    stoppedAt text (some (value, after)) = some (value, offset) := by
  simp only [stoppedAt, Option.map_some, ahead.offset_eq]

theorem letterAt?_of_ahead {c : Char} {rest : List Char} (ahead : Ahead text offset (c :: rest))
    (low : c.toNat < 128) : letterAt? text offset = some c := by
  obtain ⟨letter, found, same | ⟨high, _⟩⟩ := ahead.letterAt?
  · rw [found, same]
  · omega

theorem ofLetter?_of_high {c : Char} (high : 128 ≤ c.toNat) : Primitive.ofLetter? c = none := by
  unfold Primitive.ofLetter?
  split <;> first | rfl | simp at high

theorem read?_open {rest : List Char} (absent : ';' ∉ rest) : FieldType.read? ('L' :: rest) = none := by
  have all : ∀ c ∈ rest, decide (c ≠ ';') = true := by
    intro c member
    exact decide_eq_true fun same => absent (same ▸ member)
  simp only [FieldType.read?, List.dropWhile_eq_nil_iff.mpr all]

theorem typeAt_class_of_ahead {rest : List Char} (ahead : Ahead text offset ('L' :: rest)) :
    typeAt text offset = .ok (stoppedAt text (ResultType.read? ('L' :: rest))) := by
  have inner : Ahead text (offset + 1) rest := ahead.next rfl
  rw [typeAt_class (letterAt?_of_ahead ahead (by decide)), charsFrom_of_ahead ahead]
  by_cases closed : ';' ∈ rest
  · obtain ⟨name, after, rfl, plain⟩ := List.eq_append_cons_of_mem closed
    have distance : semicolon? ('L' :: (name ++ ';' :: after)) = some (1 + (encode name).length) := by
      rw [← List.cons_append, semicolon?_append (by simpa using plain), length_encode_cons]
      rfl
    have stop : 1 + (encode name).length + offset = offset + 1 + (encode name).length := by omega
    by_cases written : name = []
    · subst written
      rw [List.nil_append] at distance ⊢
      simp [bind, Except.bind, distance, encode, ResultType.read?, FieldType.read?, Nat.add_comm]
    · have positive : (encode name).length ≠ 0 := (length_encode_pos written).ne'
      have read := ResultType.read?_eq_of_read? (FieldType.Spelled.name written plain after).read?
      rw [read, stoppedAt_some (inner.skip.next rfl)]
      simp [bind, Except.bind, distance, stop, positive, slice_of_ahead inner]
  · have distance : semicolon? ('L' :: rest) = none := semicolon?_of_notMem (by simpa using closed)
    simp [bind, Except.bind, distance, ResultType.read?, read?_open closed]

theorem read?_eq_of_result (chars : List Char) :
    FieldType.read? chars =
      (ResultType.read? chars).bind fun (result, after) => result.map fun type => (type, after) := by
  unfold ResultType.read?
  split
  next => rfl
  next => cases FieldType.read? chars <;> rfl

theorem typeAt_high {letter : Char} (found : letterAt? text offset = some letter)
    (high : 128 ≤ letter.toNat) : typeAt text offset = .ok none := by
  have other : ∀ c : Char, c.toNat < 128 → c ≠ letter := by
    rintro c low rfl
    omega
  rw [typeAt_letter found (other _ (by decide)) (other _ (by decide)) (other _ (by decide)),
    ofLetter?_of_high high]
  rfl

theorem typeAt_letter_of_ahead {c : Char} {rest : List Char} (ahead : Ahead text offset (c :: rest))
    (void : c ≠ 'V') (reference : c ≠ 'L') (array : c ≠ '[') :
    typeAt text offset = .ok (stoppedAt text (ResultType.read? (c :: rest))) := by
  have read : ResultType.read? (c :: rest) =
      (Primitive.ofLetter? c).map fun kind => (some (.primitive kind), rest) := by
    simp [ResultType.read?, FieldType.read?, void, Function.comp_def]
  rw [read]
  obtain ⟨letter, found, rfl | ⟨wide, high⟩⟩ := ahead.letterAt?
  · rw [typeAt_letter found void.symm reference.symm array.symm]
    cases known : Primitive.ofLetter? letter with
    | none => rfl
    | some kind =>
        have short : letter.utf8Size = 1 := by
          rw [← Primitive.letter_of_ofLetter? known]
          cases kind <;> rfl
        simp only [Option.map_some, stoppedAt_some (ahead.next short)]
  · rw [typeAt_high found high, ofLetter?_of_high wide]
    rfl

theorem typeAt_of_ahead {rest : List Char} (ahead : Ahead text offset rest) :
    typeAt text offset = .ok (stoppedAt text (ResultType.read? rest)) := by
  -- Only a bracket reads on at a later offset, one character further.
  induction rest generalizing offset with
  | nil =>
      rw [typeAt_none ahead.letterAt?_nil]
      rfl
  | cons c rest ih =>
      by_cases void : c = 'V'
      · subst void
        rw [typeAt_void (letterAt?_of_ahead ahead (by decide)), ResultType.read?,
          stoppedAt_some (ahead.next rfl)]
      by_cases array : c = '['
      · subst array
        have read : ResultType.read? ('[' :: rest) = (FieldType.read? rest).map fun read =>
            (some (.array read.1), read.2) := by
          simp [ResultType.read?, FieldType.read?, Function.comp_def]
        rw [typeAt_array (letterAt?_of_ahead ahead (by decide)), ih (ahead.next rfl), read,
          read?_eq_of_result rest]
        rcases ResultType.read? rest with _ | ⟨_ | element, after⟩ <;> rfl
      by_cases reference : c = 'L'
      · subst reference
        exact typeAt_class_of_ahead ahead
      · exact typeAt_letter_of_ahead ahead void reference array

theorem typeAt_of_not_ahead (absent : ∀ rest, ¬Ahead text offset rest) :
    typeAt text offset = .ok none := by
  cases found : letterAt? text offset with
  | none => exact typeAt_none found
  | some letter =>
      -- Inside a character there are high bytes only.
      refine typeAt_high found (Nat.le_of_not_lt fun low => ?_)
      obtain ⟨rest, ahead⟩ := exists_ahead_of_letterAt? found low
      exact absent _ ahead

/-- Every slice that is taken on the way begins and ends between characters of the text. -/
theorem typeAt_eq (text : String) (offset : Nat) :
    typeAt text offset = .ok (ResultType.readAt? text offset) := by
  unfold ResultType.readAt?
  cases dropped : ResultType.dropBytes? offset text.toList with
  | none =>
      refine typeAt_of_not_ahead fun rest ahead => ?_
      simp [ahead_iff.mp ahead] at dropped
  | some rest =>
      rw [typeAt_of_ahead (ahead_iff.mpr dropped)]
      cases found : ResultType.read? rest <;> simp [found, stoppedAt]

theorem descriptor_ne_nil (result : ResultType) : (ResultType.descriptor result).toList ≠ [] := by
  rcases result with _ | _ | _ | _ <;> simp [ResultType.descriptor, FieldType.descriptor]

theorem lt_of_typeAt {result : ResultType} {next : Nat}
    (read : typeAt text offset = .ok (some (result, next))) : offset < next := by
  by_cases between : ∃ rest, Ahead text offset rest
  · obtain ⟨rest, ahead⟩ := between
    rw [typeAt_of_ahead ahead] at read
    cases found : ResultType.read? rest with
    | none => simp [found] at read
    | some pair =>
        obtain ⟨type, after⟩ := pair
        rw [ResultType.text_of_read? found] at ahead
        rw [found, stoppedAt_some ahead.skip] at read
        cases read
        have advanced := length_encode_pos (descriptor_ne_nil result)
        omega
  · rw [typeAt_of_not_ahead fun rest ahead => between ⟨rest, ahead⟩] at read
    cases read

end TypeAt

def paramsFrom (text : String) (offset : Nat) : Except BadOffset (Option (List FieldType × Nat)) :=
  match _found : letterAt? text offset with
  | none => .ok none
  | some ')' => .ok (some ([], offset + 1))
  | some _ =>
    match _read : typeAt text offset with
    | .error fault => .error fault
    | .ok (some (some type, next)) =>
      (paramsFrom text next).map (·.map fun (types, stop) => (type :: types, stop))
    | .ok _ => .ok none
termination_by (bytes text).length - offset
decreasing_by
  obtain ⟨byte, here, _⟩ := Option.map_eq_some_iff.mp _found
  have inside := (List.getElem?_eq_some_iff.mp here).1
  have advanced := lt_of_typeAt _read
  omega

def fieldType (text : String) : Except BadOffset (Option FieldType) := do
  match ← typeAt text 0 with
  | some (some type, stop) => .ok (if stop = text.utf8ByteSize then some type else none)
  | _ => .ok none

def methodType (text : String) : Except BadOffset (Option MethodType) :=
  match text.toList.head? with
  | some '(' => do
    match ← paramsFrom text 1 with
    | none => .ok none
    | some (params, offset) =>
      match ← typeAt text offset with
      | none => .ok none
      | some (result, stop) =>
        .ok (if stop = text.utf8ByteSize then some { params, result } else none)
  | _ => .ok none

section Whole

variable {text : String} {offset : Nat} {rest : List Char}

theorem paramsFrom_closed (found : letterAt? text offset = some ')') :
    paramsFrom text offset = .ok (some ([], offset + 1)) := by
  rw [paramsFrom]
  split <;> simp_all

theorem paramsFrom_type {letter : Char} (found : letterAt? text offset = some letter)
    (opened : ')' ≠ letter) {type : FieldType} {next : Nat}
    (read : typeAt text offset = .ok (some (some type, next))) :
    paramsFrom text offset =
      (paramsFrom text next).map (·.map fun (types, stop) => (type :: types, stop)) := by
  rw [paramsFrom]
  split
  next none => simp [none] at found
  next closed => exact absurd (Option.some.inj (closed.symm.trans found)) opened
  next =>
    split
    next failed => simp [failed] at read
    next made =>
      rw [made] at read
      cases read
      rfl
    next different made => exact absurd (Except.ok.inj (made.symm.trans read)) (different type next)

theorem paramsFrom_malformed {answer : Option (ResultType × Nat)}
    (opened : letterAt? text offset ≠ some ')') (read : typeAt text offset = .ok answer)
    (malformed : ∀ type next, answer ≠ some (some type, next)) :
    paramsFrom text offset = .ok none := by
  rw [paramsFrom]
  split
  next => rfl
  next closed => exact absurd closed opened
  next =>
    split
    next failed => simp [failed] at read
    next type next made => exact absurd (Except.ok.inj (read.symm.trans made)) (malformed type next)
    next => rfl

theorem letterAt?_ne_close (ahead : Ahead text offset rest) (opened : ∀ after, rest ≠ ')' :: after) :
    letterAt? text offset ≠ some ')' := by
  intro closed
  obtain ⟨after, here⟩ := exists_ahead_of_letterAt? closed (by decide)
  have same := (ahead_iff.mp ahead).symm.trans (ahead_iff.mp here)
  exact opened after (Option.some.inj same)

theorem paramsFrom_of_ahead (ahead : Ahead text offset rest) :
    paramsFrom text offset = .ok (stoppedAt text (MethodType.readParams? rest)) := by
  fun_induction MethodType.readParams? rest generalizing offset with
  | case1 after =>
      rw [paramsFrom_closed (letterAt?_of_ahead ahead (by decide)), stoppedAt_some (ahead.next rfl)]
  | case2 rest opened none =>
      refine paramsFrom_malformed (letterAt?_ne_close ahead opened) (typeAt_of_ahead ahead) ?_
      intro type next typed
      obtain ⟨⟨result, after⟩, read, same⟩ := Option.map_eq_some_iff.mp typed
      cases same
      simp [read?_eq_of_result, read] at none
  | case3 rest opened type after read ih =>
      have here := letterAt?_ne_close ahead opened
      have typed := typeAt_of_ahead ahead
      rw [FieldType.text_of_read? read] at ahead
      rw [ResultType.read?_eq_of_read? read, stoppedAt_some ahead.skip] at typed
      cases found : letterAt? text offset with
      | none => simp [typeAt_none found] at typed
      | some letter =>
          have opened : ')' ≠ letter := fun same => here (same ▸ found)
          rw [paramsFrom_type found opened typed, ih ahead.skip]
          cases MethodType.readParams? after <;> rfl

theorem stop_eq_size_iff (ahead : Ahead text offset rest) : offset = text.utf8ByteSize ↔ rest = [] := by
  have total := ahead.length_bytes
  rw [utf8ByteSize_eq, ← bytes_eq, total]
  constructor
  · intro last
    by_contra written
    have positive := length_encode_pos written
    omega
  · rintro rfl
    rfl

theorem exists_typeAt {result : ResultType} {after : List Char} (ahead : Ahead text offset rest)
    (read : ResultType.read? rest = some (result, after)) :
    ∃ stop, typeAt text offset = .ok (some (result, stop)) ∧ Ahead text stop after := by
  have typed := typeAt_of_ahead ahead
  rw [ResultType.text_of_read? read] at ahead
  rw [read, stoppedAt_some ahead.skip] at typed
  exact ⟨_, typed, ahead.skip⟩

theorem exists_paramsFrom {params : List FieldType} {after : List Char}
    (ahead : Ahead text offset rest) (read : MethodType.readParams? rest = some (params, after)) :
    ∃ stop, paramsFrom text offset = .ok (some (params, stop)) ∧ Ahead text stop after := by
  have given := paramsFrom_of_ahead ahead
  have closed : rest = (params.flatMap (·.descriptor.toList) ++ [')']) ++ after := by
    simpa using MethodType.text_of_readParams? read
  rw [closed] at ahead
  rw [read, stoppedAt_some ahead.skip] at given
  exact ⟨_, given, ahead.skip⟩

theorem fieldType_eq (text : String) : fieldType text = .ok (FieldType.ofDescriptor? text) := by
  have start := ahead_zero text
  rw [fieldType, FieldType.ofDescriptor?, read?_eq_of_result]
  cases read : ResultType.read? text.toList with
  | none =>
      rw [typeAt_of_ahead start, read]
      rfl
  | some pair =>
      obtain ⟨result, after⟩ := pair
      obtain ⟨stop, typed, behind⟩ := exists_typeAt start read
      rw [typed]
      cases result with
      | none => rfl
      | some type => cases after <;> simp [bind, Except.bind, stop_eq_size_iff behind]

theorem methodType_eq (text : String) : methodType text = .ok (MethodType.ofDescriptor? text) := by
  have start := ahead_zero text
  unfold methodType MethodType.ofDescriptor?
  cases spelled : text.toList with
  | nil => rfl
  | cons c inner =>
      by_cases opened : c = '('
      · subst opened
        have inside : Ahead text 1 inner := (spelled ▸ start).next rfl
        cases read : MethodType.readParams? inner with
        | none => simp [paramsFrom_of_ahead inside, read, bind, Except.bind]
        | some pair =>
            obtain ⟨params, rest⟩ := pair
            obtain ⟨offset, given, ahead⟩ := exists_paramsFrom inside read
            cases last : ResultType.read? rest with
            | none => simp [given, typeAt_of_ahead ahead, read, last, bind, Except.bind]
            | some pair =>
                obtain ⟨result, after⟩ := pair
                obtain ⟨stop, typed, behind⟩ := exists_typeAt ahead last
                cases after <;>
                  simp [given, typed, read, last, stop_eq_size_iff behind, bind, Except.bind]
      · simp [opened]

end Whole

end DescriptorBytes

end BytecodeToC
