import BytecodeToC.Symbol

/-!
Symbols as words. A symbol is read as the words between its underscores: those of the class and the
member, two empty ones, and those of the signature. The signature is a list of pieces that determines
the type, though its words need not determine the pieces.
-/

namespace BytecodeToC

namespace Symbol

/-! Characters -/

theorem isAlphanum_of_mem_toDigits {value : Nat} {digit : Char}
    (member : digit ∈ Nat.toDigits 16 value) : digit.isAlphanum = true := by
  have single : ∀ small < 16, (Nat.digitChar small).isAlphanum = true := by decide
  induction value using Nat.strongRecOn with
  | ind value ih =>
      rcases Nat.lt_or_ge value 16 with below | above
      · rw [Nat.toDigits_of_lt_base below, List.mem_singleton] at member
        exact member ▸ single value below
      · rw [Nat.toDigits_of_base_le (by omega) above, List.mem_append, List.mem_singleton] at member
        rcases member with earlier | rfl
        · exact ih (value / 16) (by omega) earlier
        · exact single _ (by omega)

theorem isAlphanum_of_mem_hexPadded {width value : Nat} {digit : Char}
    (member : digit ∈ hexPadded width value) : digit.isAlphanum = true := by
  simp only [hexPadded, List.mem_append, List.mem_replicate] at member
  rcases member with ⟨_, rfl⟩ | member
  · rfl
  · exact isAlphanum_of_mem_toDigits member

def IsWord (c : Char) : Prop := c.isAlphanum = true ∨ c = '_'
deriving Decidable

theorem isWord_of_mem_ofChar {source c : Char} (member : c ∈ ofChar source) : IsWord c := by
  unfold ofChar at member
  split at member
  next => exact .inr (by simpa using member)
  next =>
    split at member
    next word =>
      obtain rfl := List.mem_singleton.mp member
      exact word
    next =>
      rcases List.mem_cons.mp member with rfl | digit
      · exact .inr rfl
      · exact .inl (isAlphanum_of_mem_hexPadded digit)

theorem isWord_of_mem_ofClass {name : String} {c : Char} (member : c ∈ (ofClass name).toList) :
    IsWord c := by
  simp only [ofClass, String.toList_ofList, List.mem_flatMap] at member
  obtain ⟨source, _, produced⟩ := member
  exact isWord_of_mem_ofChar produced

/-! Words -/

def words (symbol : String) : List (List Char) := symbol.toList.splitOn '_'

theorem words_append (first second : String) :
    words (first ++ "_" ++ second) = words first ++ words second := by
  simp [words, List.splitOn_append_cons_self]

theorem words_of_single {symbol : String} (single : '_' ∉ symbol.toList) :
    words symbol = [symbol.toList] :=
  List.splitOn_eq_singleton single

theorem words_injective {first second : String} (same : words first = words second) :
    first = second := by
  have texts := congrArg (List.intercalate ['_']) same
  rwa [words, words, List.intercalate_splitOn, List.intercalate_splitOn, String.toList_inj] at texts

theorem words_join (start : String) (parts : List String) :
    words (start ++ String.join (parts.map ("_" ++ ·))) = words start ++ parts.flatMap words := by
  induction parts generalizing start with
  | nil => simp
  | cons part rest ih =>
      rw [List.map_cons, String.join_cons, ← String.append_assoc, ← String.append_assoc, ih,
        words_append, List.flatMap_cons, List.append_assoc]

/-! Signatures -/

inductive Piece where
  | primitive (kind : Primitive)
  | reference (name : String)
  | dimensions (count : Nat)
  | result
deriving DecidableEq, Repr

def Piece.words : Piece → List (List Char)
  | primitive kind => [kind.keyword.toList]
  | reference name => Symbol.words (ofClass name)
  | dimensions count => [(toString count ++ "ARRAY").toList]
  | result => [['R']]

def scalarPiece : FieldType → Piece
  | .primitive kind => .primitive kind
  | .reference name => .reference name
  | .array element => scalarPiece element

def depth : FieldType → Nat
  | .array element => depth element + 1
  | _ => 0

def typePieces (type : FieldType) : List Piece :=
  scalarPiece type :: if depth type = 0 then [] else [.dimensions (depth type)]

def resultPieces : ResultType → List Piece
  | none => []
  | some type => .result :: typePieces type

def signature (type : MethodType) : List Piece :=
  type.params.flatMap typePieces ++ resultPieces type.result

theorem words_ofScalar (type : FieldType) : words (ofScalar type) = (scalarPiece type).words := by
  induction type with
  | primitive kind => cases kind <;> decide +kernel
  | reference name => rfl
  | array element ih => exact ih

theorem peelArrays_eq (type : FieldType) :
    ofScalar (peelArrays type).1 = ofScalar type ∧ (peelArrays type).2 = depth type := by
  induction type with
  | primitive kind => exact ⟨rfl, rfl⟩
  | reference name => exact ⟨rfl, rfl⟩
  | array element ih => exact ⟨ih.1, congrArg (· + 1) ih.2⟩

theorem words_dimensions (count : Nat) :
    words (toString count ++ "ARRAY") = (Piece.dimensions count).words := by
  refine words_of_single ?_
  intro member
  simp only [String.toList_append, List.mem_append] at member
  rcases member with digit | letter
  · simp at digit
  · exact absurd letter (by decide)

theorem words_ofType (type : FieldType) :
    words (ofType type) = (typePieces type).flatMap Piece.words := by
  obtain ⟨scalar, count⟩ := peelArrays_eq type
  unfold ofType typePieces
  split
  next inner same =>
    rw [same] at scalar count
    simp [← count, ← words_ofScalar, ← scalar]
  next inner dimensions some same =>
    rw [same] at scalar count
    have array : ¬dimensions = 0 := some
    rw [String.append_assoc, words_append, words_dimensions, ← count]
    simp [array, ← words_ofScalar, ← scalar]

def resultParts : ResultType → List String
  | none => []
  | some type => ["R", ofType type]

theorem ofMethod_eq (owner name : String) (type : MethodType) :
    ofMethod owner name type = ofClass owner ++ "_" ++ ofMember name ++
      String.join ((["", ""] ++ type.params.map ofType ++ resultParts type.result).map ("_" ++ ·)) := by
  rw [← String.toList_inj]
  unfold ofMethod
  cases type.result <;> simp [resultParts, Function.comp_def]

theorem flatMap_resultParts (result : ResultType) :
    (resultParts result).flatMap words = (resultPieces result).flatMap Piece.words := by
  cases result with
  | none => rfl
  | some type =>
      have marker : words "R" = Piece.result.words := by decide +kernel
      simp [resultParts, resultPieces, marker, words_ofType]

theorem words_ofMethod (owner name : String) (type : MethodType) :
    words (ofMethod owner name type) =
      words (ofClass owner) ++ words (ofMember name) ++
        ([[], []] ++ (signature type).flatMap Piece.words) := by
  have empty : words "" = [[]] := by decide +kernel
  have params : (type.params.map ofType).flatMap words =
      (type.params.flatMap typePieces).flatMap Piece.words := by
    simp [List.flatMap_map, List.flatMap_assoc, words_ofType]
  rw [ofMethod_eq, words_join, words_append, List.flatMap_append, List.flatMap_append, params,
    flatMap_resultParts, signature, List.flatMap_append, List.append_assoc]
  simp [empty]

/-! Signatures determine types -/

theorem scalarPiece_ne (type : FieldType) (count : Nat) :
    scalarPiece type ≠ .dimensions count ∧ scalarPiece type ≠ .result := by
  induction type with
  | array element ih => exact ih
  | _ => simp [scalarPiece]

theorem eq_of_scalarPiece {first second : FieldType} (pieces : scalarPiece first = scalarPiece second)
    (depths : depth first = depth second) : first = second := by
  induction first generalizing second with
  | array element ih =>
      cases second with
      | array other =>
          have inner : scalarPiece element = scalarPiece other := pieces
          rw [ih inner (by simpa [depth] using depths)]
      | _ => simp [depth] at depths
  | _ =>
      cases second with
      | array other => simp [depth] at depths
      | _ => simp_all [scalarPiece]

def Closed (pieces : List Piece) : Prop := ∀ count, pieces.head? ≠ some (.dimensions count)

theorem typePieces_append_inj {first second : FieldType} {rest others : List Piece}
    (closed : Closed rest) (ended : Closed others)
    (same : typePieces first ++ rest = typePieces second ++ others) :
    first = second ∧ rest = others := by
  simp only [typePieces, List.cons_append, List.cons.injEq] at same
  obtain ⟨scalars, tails⟩ := same
  by_cases plain : depth first = 0
  · by_cases other : depth second = 0
    · exact ⟨eq_of_scalarPiece scalars (plain.trans other.symm), by simpa [plain, other] using tails⟩
    · have head := closed (depth second)
      simp [show rest = _ from by simpa [plain, other] using tails] at head
  · by_cases other : depth second = 0
    · have head := ended (depth first)
      simp [show others = _ from by simpa [plain, other] using tails.symm] at head
    · simp only [plain, other, ↓reduceIte, List.singleton_append, List.cons.injEq,
        Piece.dimensions.injEq] at tails
      exact ⟨eq_of_scalarPiece scalars tails.1, tails.2⟩

theorem closed_flatMap (types : List FieldType) {rest : List Piece} (closed : Closed rest) :
    Closed (types.flatMap typePieces ++ rest) := by
  cases types with
  | nil => exact closed
  | cons type others =>
      intro count
      simpa [typePieces] using (scalarPiece_ne type count).1

theorem closed_resultPieces (result : ResultType) : Closed (resultPieces result) := by
  intro count
  cases result <;> simp [resultPieces]

theorem resultPieces_injective {first second : ResultType}
    (same : resultPieces first = resultPieces second) : first = second := by
  cases first with
  | none => cases second <;> simp_all [resultPieces]
  | some type =>
      cases second with
      | none => simp [resultPieces] at same
      | some other =>
          have types : typePieces type ++ [] = typePieces other ++ [] := by
            simpa [resultPieces] using same
          rw [(typePieces_append_inj (by simp [Closed]) (by simp [Closed]) types).1]

theorem params_append_inj {first second : List FieldType} {result other : ResultType}
    (same : first.flatMap typePieces ++ resultPieces result =
      second.flatMap typePieces ++ resultPieces other) : first = second ∧ result = other := by
  induction first generalizing second with
  | nil =>
      cases second with
      | nil => exact ⟨rfl, resultPieces_injective same⟩
      | cons type others =>
          cases result with
          | none => simp [resultPieces, typePieces] at same
          | some result =>
              have head := (List.cons.inj same).1
              exact absurd head.symm (scalarPiece_ne type 0).2
  | cons type rest ih =>
      cases second with
      | nil =>
          cases other with
          | none => simp [resultPieces, typePieces] at same
          | some other =>
              have head := (List.cons.inj same).1
              exact absurd head (scalarPiece_ne type 0).2
      | cons next others =>
          rw [List.flatMap_cons, List.flatMap_cons, List.append_assoc, List.append_assoc] at same
          obtain ⟨rfl, tails⟩ := typePieces_append_inj (closed_flatMap rest (closed_resultPieces _))
            (closed_flatMap others (closed_resultPieces _)) same
          obtain ⟨rfl, rfl⟩ := ih tails
          exact ⟨rfl, rfl⟩

theorem signature_injective {first second : MethodType} (same : signature first = signature second) :
    first = second := by
  obtain ⟨params, results⟩ := params_append_inj same
  cases first
  cases second
  simp_all

end Symbol

end BytecodeToC
