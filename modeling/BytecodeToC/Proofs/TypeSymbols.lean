import BytecodeToC.Proofs.Digits
import BytecodeToC.Proofs.SymbolWords

/-!
Symbols of types. If class names are made of segments that start with letters, the words of a symbol
show what it is made of: a dimension word starts with a digit and stands last, and the words before it
are the segments of a class name or the keyword of a primitive. Symbols of all kinds, of any names,
hold ASCII letters, digits and underscores only.
-/

namespace BytecodeToC

namespace Symbol

/-! Plain names -/

def keywords : List String :=
  ["int", "long", "float", "double", "byte", "char", "short", "boolean", "void"]

def isSegment : List Char → Bool
  | [] => false
  | first :: rest => first.isAlpha && rest.all Char.isAlphanum

/-- A class name of segments divided by slashes, and not a keyword. -/
def IsPlain (name : String) : Prop :=
  (∀ segment ∈ name.toList.splitOn '/', isSegment segment = true) ∧ name ∉ keywords
deriving Decidable

def PlainNames : FieldType → Prop
  | .primitive _ => True
  | .reference name => IsPlain name
  | .array element => PlainNames element

theorem isAlphanum_of_isSegment {segment : List Char} (plain : isSegment segment = true) :
    ∀ c ∈ segment, c.isAlphanum = true := by
  cases segment with
  | nil => simp
  | cons first rest =>
      simp only [isSegment, Bool.and_eq_true, List.all_eq_true] at plain
      intro c member
      rcases List.mem_cons.mp member with rfl | later
      · simp [Char.isAlphanum, plain.1]
      · exact plain.2 c later

theorem ofChar_of_isAlphanum {c : Char} (plain : c.isAlphanum = true) : ofChar c = [c] := by
  have other : ¬(c = '/' ∨ c = '.' ∨ c = '-') := by
    rintro (rfl | rfl | rfl) <;> exact absurd plain (by decide)
  rw [ofChar, if_neg other, if_pos (.inl plain)]

theorem flatMap_ofChar_of_isSegment {segment : List Char} (plain : isSegment segment = true) :
    segment.flatMap ofChar = segment := by
  have same : segment.map ofChar = segment.map fun c => [c] :=
    List.map_congr_left fun c member => ofChar_of_isAlphanum (isAlphanum_of_isSegment plain c member)
  rw [List.flatMap_def, same, ← List.flatMap_def, List.flatMap_singleton']

theorem flatMap_ofChar_intercalate {segments : List (List Char)}
    (plain : ∀ segment ∈ segments, isSegment segment = true) :
    (['/'].intercalate segments).flatMap ofChar = ['_'].intercalate segments := by
  match segments with
  | [] => rfl
  | [segment] => simpa using flatMap_ofChar_of_isSegment (plain segment List.mem_cons_self)
  | segment :: next :: rest =>
      have slash : ofChar '/' = ['_'] := rfl
      have here := flatMap_ofChar_of_isSegment (plain segment List.mem_cons_self)
      have later := flatMap_ofChar_intercalate fun segment member =>
        plain segment (List.mem_cons_of_mem _ member)
      rw [List.intercalate_cons_cons, List.intercalate_cons_cons, List.flatMap_append,
        List.flatMap_append, here, later, List.flatMap_singleton, slash]

theorem words_ofClass {name : String} (plain : IsPlain name) :
    words (ofClass name) = name.toList.splitOn '/' := by
  have bare : ∀ segment ∈ name.toList.splitOn '/', '_' ∉ segment := by
    intro segment member underscore
    exact absurd (isAlphanum_of_isSegment (plain.1 segment member) '_' underscore) (by decide)
  have joined : (ofClass name).toList = ['_'].intercalate (name.toList.splitOn '/') := by
    rw [← flatMap_ofChar_intercalate plain.1, List.intercalate_splitOn, ofClass,
      String.toList_ofList]
  rw [words, joined, List.splitOn_intercalate _ bare (List.splitOn_ne_nil _ _)]

/-! Types -/

def dimensionWords (count : Nat) : List (List Char) :=
  if count = 0 then [] else [(toString count ++ "ARRAY").toList]

theorem words_ofType_eq (type : FieldType) :
    words (ofType type) = (scalarPiece type).words ++ dimensionWords (depth type) := by
  rw [words_ofType, typePieces, List.flatMap_cons, dimensionWords]
  split <;> rfl

theorem not_isAlpha_of_isDigit {c : Char} (digit : c.isDigit = true) : c.isAlpha = false := by
  simp only [Char.isDigit, Bool.and_eq_true, decide_eq_true_eq, ge_iff_le,
    UInt32.le_iff_toNat_le] at digit
  have zero : '0'.val.toNat = 48 := rfl
  have nine : '9'.val.toNat = 57 := rfl
  have upper : 'A'.val.toNat = 65 := rfl
  have lower : 'a'.val.toNat = 97 := rfl
  change (decide ('A'.val ≤ c.val ∧ c.val ≤ 'Z'.val) ||
    (decide ('a'.val ≤ c.val) && decide (c.val ≤ 'z'.val))) = false
  simp only [Bool.or_eq_false_iff, Bool.and_eq_false_iff, decide_eq_false_iff_not,
    UInt32.le_iff_toNat_le]
  omega

theorem isSegment_dimension (count : Nat) :
    isSegment (toString count ++ "ARRAY").toList = false := by
  obtain ⟨digit, more, shape, known⟩ := exists_digit count
  have other := not_isAlpha_of_isDigit known
  rw [String.toList_append, Nat.toString_eq_repr, Nat.toList_repr, shape]
  simp [isSegment, other]

theorem dimension_injective {first second : Nat}
    (same : (toString first ++ "ARRAY").toList = (toString second ++ "ARRAY").toList) :
    first = second := by
  rw [String.toList_append, String.toList_append, Nat.toString_eq_repr, Nat.toString_eq_repr,
    Nat.toList_repr, Nat.toList_repr] at same
  have values := congrArg (Nat.ofDigitChars 10 · 0) (List.append_cancel_right same)
  simpa using values

theorem append_dimensionWords_inj {front other : List (List Char)}
    (named : ∀ word ∈ front, isSegment word = true) (plain : ∀ word ∈ other, isSegment word = true)
    {first second : Nat}
    (same : front ++ dimensionWords first = other ++ dimensionWords second) :
    front = other ∧ first = second := by
  -- A dimension word is no segment, so it cannot stand among the words of a name.
  have strange : ∀ {words rest : List (List Char)} {count : Nat},
      (∀ word ∈ words, isSegment word = true) →
        words ≠ rest ++ [(toString count ++ "ARRAY").toList] := by
    rintro words rest count all rfl
    have segment := all _ (List.mem_append_right _ (List.mem_singleton_self _))
    rw [isSegment_dimension] at segment
    exact Bool.false_ne_true segment
  by_cases flat : first = 0
  · by_cases plane : second = 0
    · exact ⟨by simpa [dimensionWords, flat, plane] using same, flat.trans plane.symm⟩
    · exact absurd (by simpa [dimensionWords, flat, plane] using same) (strange named)
  · by_cases plane : second = 0
    · exact absurd (by simpa [dimensionWords, flat, plane] using same.symm) (strange plain)
    · simp only [dimensionWords, flat, plane, ↓reduceIte] at same
      obtain ⟨fronts, last⟩ := List.append_inj' same rfl
      exact ⟨fronts, dimension_injective (List.cons.inj last).1⟩

theorem scalarPiece_cases {type : FieldType} (plain : PlainNames type) :
    (∃ kind, scalarPiece type = .primitive kind) ∨
      ∃ name, scalarPiece type = .reference name ∧ IsPlain name := by
  induction type with
  | primitive kind => exact .inl ⟨kind, rfl⟩
  | reference name => exact .inr ⟨name, rfl, plain⟩
  | array element ih => exact ih plain

theorem isSegment_of_mem_scalarPiece {type : FieldType} (plain : PlainNames type) :
    ∀ word ∈ (scalarPiece type).words, isSegment word = true := by
  rcases scalarPiece_cases plain with ⟨kind, piece⟩ | ⟨name, piece, clear⟩
  · rw [piece]
    cases kind <;> decide
  · rw [piece, Piece.words, words_ofClass clear]
    exact clear.1

theorem keyword_injective {first second : Primitive} (same : first.keyword = second.keyword) :
    first = second := by
  have read : ∀ kind : Primitive, Primitive.ofKeyword? kind.keyword = some kind := by
    intro kind
    cases kind <;> decide
  exact Option.some.inj ((read first).symm.trans (same ▸ read second))

theorem eq_keyword_of_splitOn {name : String} {kind : Primitive}
    (same : name.toList.splitOn '/' = [kind.keyword.toList]) : name ∈ keywords := by
  have text := congrArg (List.intercalate ['/']) same
  rw [List.intercalate_splitOn, List.intercalate_singleton, String.toList_inj] at text
  rw [text]
  cases kind <;> decide

theorem scalarPiece_injective {first second : FieldType} (plain : PlainNames first)
    (clear : PlainNames second) (same : (scalarPiece first).words = (scalarPiece second).words) :
    scalarPiece first = scalarPiece second := by
  rcases scalarPiece_cases plain with ⟨kind, piece⟩ | ⟨name, piece, named⟩ <;>
    rcases scalarPiece_cases clear with ⟨other, next⟩ | ⟨other, next, known⟩ <;>
    rw [piece, next] at same ⊢
  · have texts : kind.keyword = other.keyword := String.toList_inj.mp (List.cons.inj same).1
    rw [keyword_injective texts]
  · rw [Piece.words, Piece.words, words_ofClass known] at same
    exact absurd (eq_keyword_of_splitOn same.symm) known.2
  · rw [Piece.words, Piece.words, words_ofClass named] at same
    exact absurd (eq_keyword_of_splitOn same) named.2
  · rw [Piece.words, Piece.words, words_ofClass named, words_ofClass known] at same
    have texts := congrArg (List.intercalate ['/']) same
    rw [List.intercalate_splitOn, List.intercalate_splitOn, String.toList_inj] at texts
    rw [texts]

theorem ofType_injective {first second : FieldType} (plain : PlainNames first)
    (clear : PlainNames second) (same : ofType first = ofType second) : first = second := by
  have parts := congrArg words same
  rw [words_ofType_eq, words_ofType_eq] at parts
  obtain ⟨scalars, depths⟩ := append_dimensionWords_inj (isSegment_of_mem_scalarPiece plain)
    (isSegment_of_mem_scalarPiece clear) parts
  exact eq_of_scalarPiece (scalarPiece_injective plain clear scalars) depths

/-! Alphabet -/

def IsSymbolic (text : String) : Prop := ∀ c ∈ text.toList, IsWord c

theorem isSymbolic_of_all {text : String}
    (all : (text.toList.all fun c => c.isAlphanum || c == '_') = true) : IsSymbolic text := by
  intro c member
  simpa [IsWord] using List.all_eq_true.mp all c member

theorem isSymbolic_append {first second : String} :
    IsSymbolic (first ++ second) ↔ IsSymbolic first ∧ IsSymbolic second := by
  simp [IsSymbolic, or_imp, forall_and]

theorem isSymbolic_join {parts : List String} (all : ∀ part ∈ parts, IsSymbolic part) :
    IsSymbolic (String.join parts) := by
  intro c member
  rw [String.toList_join, List.mem_flatMap] at member
  obtain ⟨part, listed, inside⟩ := member
  exact all part listed c inside

theorem isSymbolic_toString (count : Nat) : IsSymbolic (toString count) := by
  intro c member
  rw [Nat.toString_eq_repr, Nat.toList_repr] at member
  have digit := isDigit_toDigits member
  exact .inl (by simp [Char.isAlphanum, digit])

theorem isSymbolic_ofClass (name : String) : IsSymbolic (ofClass name) := fun _ member =>
  isWord_of_mem_ofClass member

theorem isSymbolic_ofMember (name : String) : IsSymbolic (ofMember name) := by
  unfold ofMember
  split
  · exact isSymbolic_of_all rfl
  · exact isSymbolic_of_all rfl
  · exact isSymbolic_ofClass name

theorem isSymbolic_ofScalar (type : FieldType) : IsSymbolic (ofScalar type) := by
  induction type with
  | primitive kind => cases kind <;> exact isSymbolic_of_all rfl
  | reference name => exact isSymbolic_ofClass name
  | array element ih => exact ih

theorem isSymbolic_ofType (type : FieldType) : IsSymbolic (ofType type) := by
  unfold ofType
  split
  next => exact isSymbolic_ofScalar _
  next =>
    have bar : IsSymbolic "_" := isSymbolic_of_all rfl
    have suffix : IsSymbolic "ARRAY" := isSymbolic_of_all rfl
    simp only [isSymbolic_append, isSymbolic_ofScalar, isSymbolic_toString, bar, suffix, and_self]

theorem isSymbolic_ofMethod (owner name : String) (type : MethodType) :
    IsSymbolic (ofMethod owner name type) := by
  have bar : IsSymbolic "_" := isSymbolic_of_all rfl
  have bars : IsSymbolic "__" := isSymbolic_of_all rfl
  have params : IsSymbolic (String.join (type.params.map fun param => "_" ++ ofType param)) := by
    refine isSymbolic_join fun part member => ?_
    obtain ⟨param, _, rfl⟩ := List.mem_map.mp member
    exact isSymbolic_append.mpr ⟨bar, isSymbolic_ofType param⟩
  simp only [ofMethod, isSymbolic_append, isSymbolic_ofClass, isSymbolic_ofMember, bar, bars, params,
    true_and]
  split
  · exact isSymbolic_of_all rfl
  · exact isSymbolic_append.mpr ⟨isSymbolic_of_all rfl, isSymbolic_ofType _⟩

theorem isSymbolic_classIdentity (typeName : String) : IsSymbolic (classIdentity typeName) := by
  unfold classIdentity
  split
  next => exact isSymbolic_append.mpr ⟨isSymbolic_of_all rfl, isSymbolic_ofClass typeName⟩
  next =>
    have kind : IsSymbolic "class_array" := isSymbolic_of_all rfl
    have bars : IsSymbolic "__" := isSymbolic_of_all rfl
    simp only [isSymbolic_append, isSymbolic_toString, kind, bars, true_and]
    split
    next name _ => exact isSymbolic_ofClass name
    next =>
      cases TypeName.leadingPrimitive? typeName with
      | none => exact isSymbolic_of_all rfl
      | some kind => cases kind <;> exact isSymbolic_of_all rfl

theorem isSymbolic_classId (name : String) : IsSymbolic (classId name) :=
  isSymbolic_append.mpr ⟨isSymbolic_of_all rfl, isSymbolic_ofClass name⟩

end Symbol

/-- Types with plain class names are told apart by their symbols, and every symbol, of whatever names,
is made of ASCII letters, digits and underscores. -/
theorem type_symbols_identify_types :
    (∀ first second : FieldType, Symbol.PlainNames first → Symbol.PlainNames second →
      Symbol.ofType first = Symbol.ofType second → first = second) ∧
    (∀ name : String, Symbol.IsSymbolic (Symbol.ofClass name) ∧
      Symbol.IsSymbolic (Symbol.ofMember name) ∧ Symbol.IsSymbolic (Symbol.classIdentity name) ∧
      Symbol.IsSymbolic (Symbol.classId name)) ∧
    ∀ (owner name : String) (type : MethodType),
      Symbol.IsSymbolic (Symbol.ofMethod owner name type) := by
  refine ⟨fun first second => Symbol.ofType_injective, fun name => ?_, Symbol.isSymbolic_ofMethod⟩
  exact ⟨Symbol.isSymbolic_ofClass name, Symbol.isSymbolic_ofMember name,
    Symbol.isSymbolic_classIdentity name, Symbol.isSymbolic_classId name⟩

/-- A package named like a primitive, and a class whose name ends almost like the suffix of arrays. -/
theorem nested_array_symbol_differs :
    Symbol.PlainNames (.array (.array (.reference "int/x"))) ∧
      Symbol.PlainNames (.reference "int/x/ARRAY2") ∧
      Symbol.ofType (.array (.array (.reference "int/x"))) ≠
        Symbol.ofType (.reference "int/x/ARRAY2") := by
  have array : Symbol.PlainNames (.array (.array (.reference "int/x"))) := by
    change Symbol.IsPlain "int/x"
    decide +kernel
  have scalar : Symbol.PlainNames (.reference "int/x/ARRAY2") := by
    change Symbol.IsPlain "int/x/ARRAY2"
    decide +kernel
  refine ⟨array, scalar, ?_⟩
  intro same
  exact absurd (type_symbols_identify_types.1 _ _ array scalar same) (by decide)

end BytecodeToC
