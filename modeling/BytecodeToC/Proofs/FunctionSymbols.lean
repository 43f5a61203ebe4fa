import BytecodeToC.Proofs.Descriptors
import BytecodeToC.Proofs.Manifest
import BytecodeToC.Proofs.SymbolWords

/-!
Symbols of functions. The underscore that joins the names of a symbol also stands for separators inside
them, so different methods can share a symbol. They do not if their names are clear: no owner's words
go on into another owner's, and the words of the types can be cut in one way only.
-/

namespace BytecodeToC

open Result

/-! Codes that one more word decides -/

section

variable {α β : Type} {code : α → List β} {starts : β → Prop} {known : α → Prop}
  (heads : ∀ value, known value → ∃ first rest, code value = first :: rest ∧ starts first)
  (apart : ∀ value other, known value → known other → ∀ extra, code other = code value ++ extra →
    value = other ∨ ∃ first rest, extra = first :: rest ∧ ¬starts first)

include apart in
theorem code_append_inj {value other : α} (one : known value) (two : known other)
    {rest others : List β} (begins : ∀ first ∈ rest.head?, starts first)
    (opens : ∀ first ∈ others.head?, starts first)
    (same : code value ++ rest = code other ++ others) : value = other ∧ rest = others := by
  -- One code begins the other. Unless they are equal, the next word would start a code and not start one.
  rcases List.append_eq_append_iff.mp same with ⟨extra, longer, tail⟩ | ⟨extra, longer, tail⟩
  · rcases apart value other one two extra longer with rfl | ⟨first, more, rfl, stray⟩
    · obtain rfl : extra = [] := by simpa using longer
      exact ⟨rfl, tail⟩
    · exact absurd (begins first (by simp [tail])) stray
  · rcases apart other value two one extra longer with rfl | ⟨first, more, rfl, stray⟩
    · obtain rfl : extra = [] := by simpa using longer
      exact ⟨rfl, tail.symm⟩
    · exact absurd (opens first (by simp [tail])) stray

include heads in
theorem starts_of_head?_flatMap {values : List α} (all : ∀ value ∈ values, known value) :
    ∀ first ∈ (values.flatMap code).head?, starts first := by
  intro first found
  cases values with
  | nil => simp at found
  | cons value rest =>
      obtain ⟨word, more, spelled, opens⟩ := heads value (all value List.mem_cons_self)
      rw [List.flatMap_cons, spelled] at found
      cases found
      exact opens

include heads apart in
theorem flatMap_code_injective {values others : List α} (all : ∀ value ∈ values, known value)
    (each : ∀ value ∈ others, known value) (same : values.flatMap code = others.flatMap code) :
    values = others := by
  induction values generalizing others with
  | nil =>
      cases others with
      | nil => rfl
      | cons other rest =>
          obtain ⟨word, more, spelled, _⟩ := heads other (each other List.mem_cons_self)
          simp [spelled] at same
  | cons value rest ih =>
      have later : ∀ value ∈ rest, known value := fun value member =>
        all value (List.mem_cons_of_mem _ member)
      cases others with
      | nil =>
          obtain ⟨word, more, spelled, _⟩ := heads value (all value List.mem_cons_self)
          simp [spelled] at same
      | cons other others =>
          have remaining : ∀ value ∈ others, known value := fun value member =>
            each value (List.mem_cons_of_mem _ member)
          rw [List.flatMap_cons, List.flatMap_cons] at same
          obtain ⟨rfl, tails⟩ := code_append_inj apart (all value List.mem_cons_self)
            (each other List.mem_cons_self) (starts_of_head?_flatMap heads later)
            (starts_of_head?_flatMap heads remaining) same
          rw [ih later remaining tails]

end

def MethodHeader.key (header : MethodHeader) : String × String × String :=
  (header.owner, header.name, header.descriptor)

namespace Symbol

/-! Markers -/

def Piece.marker? : Piece → Option (List Char)
  | primitive kind => some kind.keyword.toList
  | reference _ => none
  | dimensions count => some (toString count ++ "ARRAY").toList
  | result => some ['R']

def Piece.ofMarker? (word : List Char) : Option Piece :=
  let count := Nat.ofDigitChars 10 (word.takeWhile Char.isDigit) 0
  if (dimensions count).marker? = some word then some (dimensions count)
  else if word = ['R'] then some result
  else (Primitive.all.find? (·.keyword.toList = word)).map primitive

theorem takeWhile_dimensions (count : Nat) :
    (toString count ++ "ARRAY").toList.takeWhile Char.isDigit = Nat.toDigits 10 count := by
  have digits : ∀ digit ∈ Nat.toDigits 10 count, digit.isDigit = true := fun digit member =>
    Nat.isDigit_of_mem_toDigits (by decide) (by decide) member
  have stop : "ARRAY".toList.takeWhile Char.isDigit = [] := rfl
  rw [String.toList_append, Nat.toString_eq_repr, Nat.toList_repr,
    List.takeWhile_append_of_pos digits, stop, List.append_nil]

theorem Piece.ofMarker?_of_marker? {piece : Piece} {word : List Char}
    (marker : piece.marker? = some word) : ofMarker? word = some piece := by
  cases piece with
  | primitive kind =>
      cases marker
      cases kind <;> decide +kernel
  | reference name => simp [marker?] at marker
  | dimensions count =>
      cases marker
      have read : Nat.ofDigitChars 10 (Nat.toDigits 10 count) 0 = count := by simp
      simp only [ofMarker?, takeWhile_dimensions, read]
      simp [marker?]
  | result =>
      cases marker
      decide +kernel

def isMarker (word : List Char) : Bool := (Piece.ofMarker? word).isSome

theorem isMarker_of_marker? {piece : Piece} {word : List Char} (marker : piece.marker? = some word) :
    isMarker word = true := by
  rw [isMarker, Piece.ofMarker?_of_marker? marker]
  rfl

theorem marker?_injective {first second : Piece} {word : List Char}
    (one : first.marker? = some word) (two : second.marker? = some word) : first = second := by
  have same := (Piece.ofMarker?_of_marker? one).symm.trans (Piece.ofMarker?_of_marker? two)
  exact Option.some.inj same

theorem Piece.words_of_marker? {piece : Piece} {word : List Char} (marker : piece.marker? = some word) :
    piece.words = [word] := by
  cases piece <;> simp_all [marker?, words]

theorem Piece.marker?_or_reference (piece : Piece) :
    (∃ word, piece.marker? = some word) ∨ ∃ name, piece = .reference name := by
  cases piece <;> simp [marker?]

/-! Clear signatures -/

def isStart (classes : List String) (word : List Char) : Bool :=
  isMarker word || classes.any fun name => (words (ofClass name)).head? = some word

/-- No class has an empty word or begins with a marker. If the words of one class begin those of
another, no piece begins with the word that comes next. -/
structure ClearClasses (classes : List String) : Prop where
  filled : ∀ name ∈ classes, [] ∉ words (ofClass name)
  unmarked : ∀ name ∈ classes, (words (ofClass name)).head?.any isMarker = false
  apart : ∀ name ∈ classes, ∀ other ∈ classes, words (ofClass name) <+: words (ofClass other) →
    name = other ∨
      (words (ofClass other))[(words (ofClass name)).length]?.any (!isStart classes ·) = true

def Piece.Known (classes : List String) (piece : Piece) : Prop :=
  ∀ name, piece = .reference name → name ∈ classes

theorem words_ne_nil (symbol : String) : words symbol ≠ [] := List.splitOn_ne_nil _ _

theorem Piece.words_head {classes : List String} (piece : Piece) (known : piece.Known classes) :
    ∃ first rest, piece.words = first :: rest ∧ isStart classes first = true := by
  rcases piece.marker?_or_reference with ⟨word, marker⟩ | ⟨name, rfl⟩
  · exact ⟨word, [], words_of_marker? marker, by simp [isStart, isMarker_of_marker? marker]⟩
  · obtain ⟨first, rest, spelled⟩ := List.exists_cons_of_ne_nil (words_ne_nil (ofClass name))
    have begins : classes.any (fun name => (Symbol.words (ofClass name)).head? = some first) = true :=
      List.any_eq_true.mpr ⟨name, known name rfl, by simp [spelled]⟩
    exact ⟨first, rest, spelled, by simp [isStart, begins]⟩

theorem ClearClasses.ne_marker {classes : List String} (clear : ClearClasses classes) {name : String}
    (known : name ∈ classes) {piece : Piece} {word : List Char} (marker : piece.marker? = some word) :
    (words (ofClass name)).head? ≠ some word := by
  intro begins
  have unmarked := clear.unmarked name known
  simp [begins, isMarker_of_marker? marker] at unmarked

theorem ClearClasses.pieces_apart {classes : List String} (clear : ClearClasses classes)
    (piece other : Piece) (one : piece.Known classes) (two : other.Known classes)
    (extra : List (List Char)) (longer : other.words = piece.words ++ extra) :
    piece = other ∨ ∃ first rest, extra = first :: rest ∧ ¬isStart classes first = true := by
  rcases piece.marker?_or_reference with ⟨word, marker⟩ | ⟨name, rfl⟩
  · rw [Piece.words_of_marker? marker] at longer
    rcases other.marker?_or_reference with ⟨final, ending⟩ | ⟨name, rfl⟩
    · obtain rfl : final = word := by
        simpa [Piece.words_of_marker? ending] using congrArg List.head? longer
      exact .inl (marker?_injective marker ending)
    · exact absurd (congrArg List.head? longer) (clear.ne_marker (two name rfl) marker)
  · rcases other.marker?_or_reference with ⟨final, ending⟩ | ⟨second, rfl⟩
    · obtain ⟨first, rest, spelled⟩ := List.exists_cons_of_ne_nil (words_ne_nil (ofClass name))
      have begins : (words (ofClass name)).head? = some final := by
        have heads := congrArg List.head? longer
        rw [Piece.words_of_marker? ending, Piece.words, spelled] at heads
        simpa [spelled] using heads.symm
      exact absurd begins (clear.ne_marker (one name rfl) ending)
    · -- Only a class can go on where another class ends.
      have longer : words (ofClass second) = words (ofClass name) ++ extra := longer
      rcases clear.apart name (one name rfl) second (two second rfl) ⟨extra, longer.symm⟩ with
        rfl | next
      · exact .inl rfl
      · rw [longer, List.getElem?_append_right (Nat.le_refl _), Nat.sub_self] at next
        cases extra with
        | nil => simp at next
        | cons first rest => exact .inr ⟨first, rest, rfl, by simpa using next⟩

theorem ClearClasses.signature_words_injective {classes : List String} (clear : ClearClasses classes)
    {type other : MethodType} (one : ∀ piece ∈ signature type, piece.Known classes)
    (two : ∀ piece ∈ signature other, piece.Known classes)
    (same : (signature type).flatMap Piece.words = (signature other).flatMap Piece.words) :
    type = other :=
  signature_injective (flatMap_code_injective Piece.words_head clear.pieces_apart one two same)

theorem ClearClasses.nil_not_mem_words {classes : List String} (clear : ClearClasses classes)
    {type : MethodType} (known : ∀ piece ∈ signature type, piece.Known classes) :
    [] ∉ (signature type).flatMap Piece.words := by
  intro member
  obtain ⟨piece, among, blank⟩ := List.mem_flatMap.mp member
  cases piece with
  | reference name => exact clear.filled name (known _ among name rfl) blank
  | primitive kind => cases kind <;> simp [Piece.words, Primitive.keyword] at blank
  | dimensions count => simp [Piece.words] at blank
  | result => simp [Piece.words] at blank

/-! Clear names -/

def Piece.className? : Piece → Option String
  | reference name => some name
  | _ => none

def classNames (header : MethodHeader) : List String :=
  match MethodType.ofDescriptor? header.descriptor with
  | some type => (signature type).filterMap Piece.className?
  | none => []

def path (header : MethodHeader) : List (List Char) :=
  words (ofClass header.owner) ++ words (ofMember header.name)

def spelling (header : MethodHeader) : List (List Char) :=
  path header ++ ([[], []] ++
    match MethodType.ofDescriptor? header.descriptor with
    | some type => (signature type).flatMap Piece.words
    | none => [])

/-- The words of one owner do not begin those of another that lies on the path to a method of the
first, members of one owner are spelled differently, and the classes of the descriptors are clear. -/
structure ClearNames (headers : List MethodHeader) : Prop where
  owners : ∀ header ∈ headers, ∀ other ∈ headers, header.owner ≠ other.owner →
    words (ofClass header.owner) <+: words (ofClass other.owner) →
      ¬words (ofClass other.owner) <+: path header
  members : ∀ header ∈ headers, ∀ other ∈ headers, header.owner = other.owner →
    ofMember header.name = ofMember other.name → header.name = other.name
  classes : ClearClasses (headers.flatMap classNames)

section

variable {headers : List MethodHeader} {header other : MethodHeader}

theorem known_of_mem_signature (listed : header ∈ headers) {type : MethodType}
    (read : MethodType.ofDescriptor? header.descriptor = some type) :
    ∀ piece ∈ signature type, piece.Known (headers.flatMap classNames) := by
  rintro piece member name rfl
  refine List.mem_flatMap.mpr ⟨header, listed, ?_⟩
  rw [classNames, read]
  exact List.mem_filterMap.mpr ⟨_, member, rfl⟩

theorem ClearNames.path_injective (clear : ClearNames headers) (one : header ∈ headers)
    (two : other ∈ headers) (same : path header = path other) :
    header.owner = other.owner ∧ header.name = other.name := by
  have owners : header.owner = other.owner := by
    by_contra differ
    have first : words (ofClass header.owner) <+: path header := List.prefix_append _ _
    have second : words (ofClass other.owner) <+: path header := by
      rw [same]
      exact List.prefix_append _ _
    -- Both owners begin one path, so the shorter begins the longer.
    rcases List.prefix_or_prefix_of_prefix first second with shorter | longer
    · exact clear.owners header one other two differ shorter second
    · rw [same] at first
      exact clear.owners other two header one (Ne.symm differ) longer first
  have members : words (ofMember header.name) = words (ofMember other.name) := by
    rw [path, path, owners] at same
    exact List.append_cancel_left same
  exact ⟨owners, clear.members header one other two owners (words_injective members)⟩

theorem eq_nil_of_blank_split {extra rest tail : List (List Char)} (filled : [] ∉ rest)
    (split : [] :: rest = extra ++ [] :: tail) : extra = [] := by
  cases extra with
  | nil => rfl
  | cons word more =>
      rw [List.cons_append, List.cons.injEq] at split
      exact absurd (by simp [split.2]) filled

theorem append_blanks_inj {start front rest tail : List (List Char)} (filled : [] ∉ rest)
    (full : [] ∉ tail) (same : start ++ ([[], []] ++ rest) = front ++ ([[], []] ++ tail)) :
    start = front ∧ rest = tail := by
  have parted : start ++ [[]] ++ [] :: rest = front ++ [[]] ++ [] :: tail := by simpa using same
  rcases List.append_eq_append_iff.mp parted with ⟨extra, longer, split⟩ | ⟨extra, longer, split⟩
  · obtain rfl := eq_nil_of_blank_split filled split
    exact ⟨by simpa using longer.symm, by simpa using split⟩
  · obtain rfl := eq_nil_of_blank_split full split
    exact ⟨by simpa using longer, by simpa using split.symm⟩

theorem spelling_eq {type : MethodType}
    (read : MethodType.ofDescriptor? header.descriptor = some type) :
    spelling header = words (ofMethod header.owner header.name type) := by
  rw [words_ofMethod, spelling, read]
  rfl

theorem ClearNames.key_of_spelling (clear : ClearNames headers) (one : header ∈ headers)
    (two : other ∈ headers) {type kind : MethodType}
    (read : MethodType.ofDescriptor? header.descriptor = some type)
    (again : MethodType.ofDescriptor? other.descriptor = some kind)
    (same : spelling header = spelling other) : header.key = other.key := by
  simp only [spelling, read, again] at same
  have first := known_of_mem_signature one read
  have second := known_of_mem_signature two again
  obtain ⟨paths, signatures⟩ := append_blanks_inj (clear.classes.nil_not_mem_words first)
    (clear.classes.nil_not_mem_words second) same
  obtain ⟨owners, names⟩ := clear.path_injective one two paths
  obtain rfl := clear.classes.signature_words_injective first second signatures
  rw [MethodHeader.key, MethodHeader.key, owners, names,
    MethodType.descriptor_of_ofDescriptor? read, MethodType.descriptor_of_ofDescriptor? again]

theorem spelling_of_key (same : header.key = other.key) : spelling header = spelling other := by
  simp only [MethodHeader.key, Prod.mk.injEq] at same
  obtain ⟨owners, names, descriptors⟩ := same
  simp only [spelling, path, owners, names, descriptors]

end

end Symbol

/-! Runs -/

theorem Visit.symbol_of_lower {visit : Visit} {index : ClassIndex} {options : Options}
    {function : LoweredMethod} (success : (visit.lower index options).1 = .ok function) :
    visit.header.symbol = .ok function.symbol ∧
      ∃ type, MethodType.ofDescriptor? visit.header.descriptor = some type ∧
        function.symbol = Symbol.ofMethod visit.header.owner visit.header.name type := by
  obtain ⟨type, scope, lowers⟩ := MethodHeader.lower_eq_ok (Prod.ext success rfl)
  exact ⟨lowers.header_symbol, type, MethodType.ofDescriptor?_of_parse lowers.parsed, lowers.symbol⟩

namespace Program

def loweredHeaders (program : Program) (options : Options) : List MethodHeader :=
  program.visits.filterMap fun visit =>
    (visit.lower program.classIndex options).1.toOption.map fun _ => visit.header

variable {program : Program} {options : Options} {unit : LoweredUnit}

theorem readable_of_mem_loweredHeaders {header : MethodHeader}
    (listed : header ∈ program.loweredHeaders options) :
    ∃ type, MethodType.ofDescriptor? header.descriptor = some type := by
  obtain ⟨visit, _, given⟩ := List.mem_filterMap.mp listed
  obtain ⟨function, success, rfl⟩ := Option.map_eq_some_iff.mp given
  obtain ⟨_, type, read, _⟩ := Visit.symbol_of_lower ((Result.toOption_eq_some_iff ..).mp success)
  exact ⟨type, read⟩

theorem map_methods_eq {β : Type} {ofFunction : LoweredMethod → β} {ofHeader : MethodHeader → β}
    (success : program.lower options = .ok unit)
    (agree : ∀ (visit : Visit) function, (visit.lower program.classIndex options).1 = .ok function →
      ofFunction function = ofHeader visit.header) :
    unit.methods.map ofFunction = (program.loweredHeaders options).map ofHeader := by
  rw [methods_of_lower success, loweredHeaders, List.map_filterMap, List.map_filterMap]
  refine List.filterMap_congr fun visit _ => ?_
  rw [Option.map_map]
  cases outcome : (visit.lower program.classIndex options).1 with
  | error failure => rfl
  | ok function => exact congrArg some (agree visit function outcome)

theorem words_symbols (success : program.lower options = .ok unit) :
    unit.methods.map (fun function => Symbol.words function.symbol) =
      (program.loweredHeaders options).map Symbol.spelling := by
  refine map_methods_eq success ?_
  intro visit function lowered
  obtain ⟨_, type, read, symbol⟩ := Visit.symbol_of_lower lowered
  rw [symbol, Symbol.spelling_eq read]

theorem nodup_symbols_iff (success : program.lower options = .ok unit) :
    (unit.methods.map (·.symbol)).Nodup ↔
      ((program.loweredHeaders options).map Symbol.spelling).Nodup := by
  have injective : Function.Injective Symbol.words := fun _ _ => Symbol.words_injective
  rw [← words_symbols success, ← List.nodup_map_iff injective, List.map_map]
  rfl

theorem nodup_spelling_iff (clear : Symbol.ClearNames (program.loweredHeaders options)) :
    ((program.loweredHeaders options).map Symbol.spelling).Nodup ↔
      ((program.loweredHeaders options).map MethodHeader.key).Nodup := by
  rw [List.Nodup, List.Nodup, List.pairwise_map, List.pairwise_map]
  refine List.Pairwise.iff_of_mem ?_
  intro header other one two
  obtain ⟨type, read⟩ := readable_of_mem_loweredHeaders one
  obtain ⟨kind, again⟩ := readable_of_mem_loweredHeaders two
  exact not_congr ⟨clear.key_of_spelling one two read again, Symbol.spelling_of_key⟩

end Program

/-- The symbols of a unit differ exactly if their spellings do. For methods with clear names these
differ exactly if the methods have different owners, names or descriptors. -/
theorem function_symbols_distinct_iff {program : Program} {options : Options} {unit : LoweredUnit}
    (success : program.lower options = .ok unit) :
    (program.loweredHeaders options).map MethodHeader.symbol =
        unit.methods.map (fun function => .ok function.symbol) ∧
      ((unit.methods.map (·.symbol)).Nodup ↔
        ((program.loweredHeaders options).map Symbol.spelling).Nodup) ∧
      (Symbol.ClearNames (program.loweredHeaders options) →
        ((unit.methods.map (·.symbol)).Nodup ↔
          ((program.loweredHeaders options).map MethodHeader.key).Nodup)) := by
  refine ⟨?_, Program.nodup_symbols_iff success, ?_⟩
  · symm
    refine Program.map_methods_eq success ?_
    intro visit function lowered
    exact (Visit.symbol_of_lower lowered).1.symm
  · intro clear
    exact (Program.nodup_symbols_iff success).trans (Program.nodup_spelling_iff clear)

def Sample.overloads : Program :=
  { classes :=
      [{ name := "t/Main", superName := none, fields := []
         methods :=
           [{ name := "put", descriptor := "(Ljava/util/Map;)V", isStatic := true
              maxStack := 0, maxLocals := 1
              code := [.simple "return" none], tryCatch := [] },
            { name := "put", descriptor := "(Ljava/util/Map$Entry;[[I)I", isStatic := true
              maxStack := 1, maxLocals := 2
              code := [.simple "iconst_0" none, .simple "ireturn" none], tryCatch := [] }] },
       { name := "t/Main$Part", superName := none, fields := []
         methods :=
           [{ name := "put", descriptor := "(Ljava/util/Map;)V", isStatic := true
              maxStack := 0, maxLocals := 1
              code := [.simple "return" none], tryCatch := [] }] }] }

theorem clear_overloads_distinct :
    ∃ unit, Sample.overloads.lower {} = .ok unit ∧
      Symbol.ClearNames (Sample.overloads.loweredHeaders {}) ∧
      unit.methods.length = 3 ∧ (unit.methods.map (·.symbol)).Nodup := by
  have made : (Sample.overloads.lower {}).map (·.methods.length) = .ok 3 := by decide +kernel
  obtain ⟨unit, success, count⟩ := (map_eq_ok_iff ..).mp made
  have headers : Sample.overloads.loweredHeaders {} =
      Sample.overloads.methodsWithCode.map (fun (owner, method) => method.header owner) := by
    decide +kernel
  have clear : Symbol.ClearNames (Sample.overloads.loweredHeaders {}) := by
    rw [headers]
    exact
      { owners := by decide +kernel
        members := by decide +kernel
        classes :=
          { filled := by decide +kernel
            unmarked := by decide +kernel
            apart := by decide +kernel } }
  have keys : ((Sample.overloads.loweredHeaders {}).map MethodHeader.key).Nodup := by
    rw [headers]
    decide +kernel
  obtain ⟨_, _, distinct⟩ := function_symbols_distinct_iff success
  exact ⟨unit, success, clear, count, (distinct clear).mpr keys⟩

def Sample.sharing : Program :=
  { classes :=
      [{ name := "t/Main", superName := none, fields := []
         methods :=
           [{ name := "a_b", descriptor := "()V", isStatic := true, maxStack := 0, maxLocals := 0
              code := [.simple "return" none], tryCatch := [] }] },
       { name := "t/Main_a", superName := none, fields := []
         methods :=
           [{ name := "b", descriptor := "()V", isStatic := true, maxStack := 0, maxLocals := 0
              code := [.simple "return" none], tryCatch := [] }] }] }

theorem different_methods_share_symbol :
    ∃ unit, Sample.sharing.lower {} = .ok unit ∧
      ((Sample.sharing.loweredHeaders {}).map MethodHeader.key).Nodup ∧
      unit.methods.map (·.symbol) = ["t_Main_a_b__", "t_Main_a_b__"] := by
  have made : (Sample.sharing.lower {}).map (fun unit => unit.methods.map (·.symbol)) =
      .ok ["t_Main_a_b__", "t_Main_a_b__"] := by
    decide +kernel
  obtain ⟨unit, success, symbols⟩ := (map_eq_ok_iff ..).mp made
  exact ⟨unit, success, by decide +kernel, symbols⟩

end BytecodeToC
