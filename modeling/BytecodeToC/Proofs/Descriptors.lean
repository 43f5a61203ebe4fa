import BytecodeToC.Descriptor

/-!
Reading descriptors. What a reader accepts is the text of the type that it returns, so two descriptors
that spell the same type are the same text. The types it returns are those whose class names are not
empty and hold no semicolon, and the text of such a type is accepted, whatever follows it.
-/

namespace BytecodeToC

namespace FieldType

def ProperNames : FieldType → Prop
  | primitive _ => True
  | reference name => name ≠ "" ∧ ';' ∉ name.toList
  | array element => element.ProperNames

inductive Spelled : List Char → FieldType → List Char → Prop
  | letter (kind : Primitive) (rest : List Char) : Spelled (kind.letter :: rest) (primitive kind) rest
  | name {name : List Char} (written : name ≠ []) (plain : ';' ∉ name) (rest : List Char) :
      Spelled ('L' :: (name ++ ';' :: rest)) (reference (String.ofList name)) rest
  | bracket {text rest : List Char} {element : FieldType} (inner : Spelled text element rest) :
      Spelled ('[' :: text) (array element) rest

theorem spelled_of_read? {text rest : List Char} {type : FieldType}
    (found : read? text = some (type, rest)) : Spelled text type rest := by
  induction text generalizing type rest with
  | nil => simp [read?] at found
  | cons first tail ih =>
      unfold read? at found
      split at found
      next => simp at found
      next inner same =>
        cases same
        obtain ⟨⟨element, after⟩, read, same⟩ := Option.map_eq_some_iff.mp found
        cases same
        exact .bracket (ih read)
      next inner same =>
        cases same
        split at found
        next last after split =>
          split at found
          next => simp at found
          next written =>
            cases found
            have ends := List.head?_dropWhile_not (· ≠ ';') tail
            rw [split] at ends
            obtain rfl : last = ';' := by simpa using ends
            have parts := List.takeWhile_append_dropWhile (p := (· ≠ ';')) (l := tail)
            rw [split] at parts
            have plain : ';' ∉ tail.takeWhile (· ≠ ';') := by
              intro member
              have kept := List.all_eq_true.mp List.all_takeWhile ';' member
              simp at kept
            have named := Spelled.name written plain rest
            rwa [parts] at named
        next => simp at found
      next c inner bracket letter same =>
        cases same
        obtain ⟨kind, known, same⟩ := Option.map_eq_some_iff.mp found
        cases same
        rw [← Primitive.letter_of_ofLetter? known]
        exact .letter kind tail

theorem Spelled.read? {text rest : List Char} {type : FieldType} (spelled : Spelled text type rest) :
    read? text = some (type, rest) := by
  induction spelled with
  | letter kind rest => cases kind <;> rfl
  | @name name written plain rest =>
      have kept : ∀ c ∈ name, decide (c ≠ ';') = true := by
        intro c member
        exact decide_eq_true fun same => plain (same ▸ member)
      unfold FieldType.read?
      simp only [List.takeWhile_append_of_pos kept, List.dropWhile_append_of_pos kept]
      simp [written]
  | bracket inner ih =>
      rw [FieldType.read?, ih]
      rfl

theorem Spelled.text_eq {text rest : List Char} {type : FieldType} (spelled : Spelled text type rest) :
    text = type.descriptor.toList ++ rest := by
  induction spelled with
  | letter kind rest => simp [descriptor]
  | name written plain rest => simp [descriptor]
  | bracket inner ih => simp [descriptor, ih]

theorem Spelled.properNames {text rest : List Char} {type : FieldType}
    (spelled : Spelled text type rest) : type.ProperNames := by
  induction spelled with
  | letter kind rest => trivial
  | name written plain rest => exact ⟨by simpa using written, by simpa using plain⟩
  | bracket inner ih => exact ih

theorem spelled_descriptor {type : FieldType} (proper : type.ProperNames) (rest : List Char) :
    Spelled (type.descriptor.toList ++ rest) type rest := by
  induction type with
  | primitive kind => simpa [descriptor] using Spelled.letter kind rest
  | reference name =>
      have named := Spelled.name (by simpa using proper.1) proper.2 rest
      simpa [descriptor] using named
  | array element ih => simpa [descriptor] using (ih proper).bracket

theorem text_of_read? {text rest : List Char} {type : FieldType}
    (found : read? text = some (type, rest)) : text = type.descriptor.toList ++ rest :=
  (spelled_of_read? found).text_eq

theorem properNames_of_read? {text rest : List Char} {type : FieldType}
    (found : read? text = some (type, rest)) : type.ProperNames :=
  (spelled_of_read? found).properNames

theorem read?_descriptor {type : FieldType} (proper : type.ProperNames) (rest : List Char) :
    read? (type.descriptor.toList ++ rest) = some (type, rest) :=
  (spelled_descriptor proper rest).read?

theorem ofDescriptor?_eq_some_iff {text : String} {type : FieldType} :
    ofDescriptor? text = some type ↔ text = type.descriptor ∧ type.ProperNames := by
  constructor
  · intro found
    unfold ofDescriptor? at found
    split at found
    next read =>
      cases found
      refine ⟨?_, properNames_of_read? read⟩
      rw [← String.toList_inj, text_of_read? read, List.append_nil]
    next => simp at found
  · rintro ⟨rfl, proper⟩
    have read := read?_descriptor proper []
    rw [List.append_nil] at read
    rw [ofDescriptor?, read]

theorem parse_eq_ok_iff {text : String} {type : FieldType} :
    parse text = .ok type ↔ ofDescriptor? text = some type := by
  unfold parse
  split <;> simp_all

theorem toOption_parse (text : String) : (parse text).toOption = ofDescriptor? text := by
  unfold parse
  split <;> simp_all [Except.toOption]

end FieldType

theorem ResultType.text_of_read? {text rest : List Char} {result : ResultType}
    (found : read? text = some (result, rest)) :
    text = (ResultType.descriptor result).toList ++ rest := by
  unfold read? at found
  split at found
  next => 
    cases found
    rfl
  next =>
    obtain ⟨⟨type, after⟩, read, same⟩ := Option.map_eq_some_iff.mp found
    cases same
    exact FieldType.text_of_read? read

namespace ResultType

def ProperNames : ResultType → Prop
  | none => True
  | some type => type.ProperNames

theorem properNames_of_read? {text rest : List Char} {result : ResultType}
    (found : read? text = some (result, rest)) : ProperNames result := by
  unfold read? at found
  split at found
  next =>
    cases found
    trivial
  next =>
    obtain ⟨⟨type, after⟩, read, same⟩ := Option.map_eq_some_iff.mp found
    cases same
    exact FieldType.properNames_of_read? read

theorem read?_eq_of_read? {text rest : List Char} {type : FieldType}
    (found : FieldType.read? text = some (type, rest)) : read? text = some (some type, rest) := by
  unfold read?
  split
  next => simp [FieldType.read?, Primitive.ofLetter?] at found
  next => rw [found]; rfl

theorem read?_descriptor {result : ResultType} (proper : ProperNames result) (rest : List Char) :
    read? ((descriptor result).toList ++ rest) = some (result, rest) := by
  cases result with
  | none => rfl
  | some type => exact read?_eq_of_read? (FieldType.read?_descriptor proper rest)

end ResultType

namespace MethodType

theorem text_of_readParams? {text rest : List Char} {types : List FieldType}
    (found : readParams? text = some (types, rest)) :
    text = types.flatMap (·.descriptor.toList) ++ ')' :: rest := by
  fun_induction readParams? text generalizing types with
  | case1 after =>
      cases found
      rfl
  | case2 => simp at found
  | case3 text other type after read ih =>
      obtain ⟨⟨others, last⟩, later, same⟩ := Option.map_eq_some_iff.mp found
      cases same
      rw [FieldType.text_of_read? read, ih later, List.flatMap_cons, List.append_assoc]

theorem properNames_of_readParams? {text rest : List Char} {types : List FieldType}
    (found : readParams? text = some (types, rest)) : ∀ type ∈ types, type.ProperNames := by
  fun_induction readParams? text generalizing types with
  | case1 after =>
      cases found
      simp
  | case2 => simp at found
  | case3 text other type after read ih =>
      obtain ⟨⟨others, last⟩, later, same⟩ := Option.map_eq_some_iff.mp found
      cases same
      exact List.forall_mem_cons.mpr ⟨FieldType.properNames_of_read? read, ih later⟩

theorem readParams?_of_read? {text after : List Char} {type : FieldType}
    (read : FieldType.read? text = some (type, after)) :
    readParams? text =
      (readParams? after).map fun (types, rest) => (type :: types, rest) := by
  have opened : ∀ rest, text ≠ ')' :: rest := by
    rintro rest rfl
    simp [FieldType.read?, Primitive.ofLetter?] at read
  rw [readParams?]
  · split
    next none => simp [none] at read
    next found =>
      rw [read] at found
      cases found
      rfl
  · exact opened

theorem readParams?_descriptors {types : List FieldType} (proper : ∀ type ∈ types, type.ProperNames)
    (rest : List Char) :
    readParams? (types.flatMap (·.descriptor.toList) ++ ')' :: rest) = some (types, rest) := by
  induction types with
  | nil => simp [readParams?]
  | cons type others ih =>
      obtain ⟨here, later⟩ := List.forall_mem_cons.mp proper
      rw [List.flatMap_cons, List.append_assoc,
        readParams?_of_read? (FieldType.read?_descriptor here _), ih later]
      rfl

theorem descriptor_of_ofDescriptor? {text : String} {type : MethodType}
    (found : ofDescriptor? text = some type) : text = type.descriptor := by
  unfold ofDescriptor? at found
  split at found
  next inner spelled =>
    obtain ⟨⟨params, rest⟩, read, found⟩ := Option.bind_eq_some_iff.mp found
    dsimp only at found
    split at found
    next result last =>
      cases found
      rw [← String.toList_inj, spelled, text_of_readParams? read, ResultType.text_of_read? last]
      simp [descriptor, String.toList_join, List.flatMap_map]
    next => simp at found
  next => simp at found

def ProperNames (type : MethodType) : Prop :=
  (∀ param ∈ type.params, param.ProperNames) ∧ ResultType.ProperNames type.result

theorem ofDescriptor?_descriptor {type : MethodType} (proper : type.ProperNames) :
    ofDescriptor? type.descriptor = some type := by
  have spelled : type.descriptor.toList = '(' :: (type.params.flatMap (·.descriptor.toList) ++
      ')' :: (ResultType.descriptor type.result).toList) := by
    simp [descriptor, String.toList_join, List.flatMap_map]
  have last := ResultType.read?_descriptor proper.2 []
  rw [List.append_nil] at last
  simp [ofDescriptor?, spelled, readParams?_descriptors proper.1, last]

theorem ofDescriptor?_eq_some_iff {text : String} {type : MethodType} :
    ofDescriptor? text = some type ↔ text = type.descriptor ∧ type.ProperNames := by
  refine ⟨fun found => ⟨descriptor_of_ofDescriptor? found, ?_⟩, ?_⟩
  · unfold ofDescriptor? at found
    split at found
    next inner spelled =>
      obtain ⟨⟨params, rest⟩, read, found⟩ := Option.bind_eq_some_iff.mp found
      dsimp only at found
      split at found
      next result last =>
        cases found
        exact ⟨properNames_of_readParams? read, ResultType.properNames_of_read? last⟩
      next => simp at found
    next => simp at found
  · rintro ⟨rfl, proper⟩
    exact ofDescriptor?_descriptor proper

theorem parse_eq_ok_iff {text : String} {type : MethodType} :
    parse text = .ok type ↔ ofDescriptor? text = some type := by
  unfold parse
  split <;> simp_all

theorem toOption_parse (text : String) : (parse text).toOption = ofDescriptor? text := by
  unfold parse
  split <;> simp_all [Except.toOption]

theorem ofDescriptor?_of_parse {text : String} {type : MethodType} (accepted : parse text = .ok type) :
    ofDescriptor? text = some type := by
  unfold parse at accepted
  split at accepted
  next found =>
    cases accepted
    exact found
  next => cases accepted

end MethodType

end BytecodeToC
