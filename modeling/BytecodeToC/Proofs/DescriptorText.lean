import BytecodeToC.Proofs.DescriptorBytes

/-!
Descriptors and the types they spell. The printer also has texts for types that no value has, such as
an array of void; the readers accept the texts of all other types and nothing else.
-/

namespace BytecodeToC

/-- Types as a printer takes them: void may stand anywhere. -/
inductive TypeTerm where
  | void
  | primitive (kind : Primitive)
  | reference (name : String)
  | array (element : TypeTerm)
deriving DecidableEq, Repr

namespace TypeTerm

def descriptor : TypeTerm → String
  | void => "V"
  | primitive kind => String.singleton kind.letter
  | reference name => "L" ++ name ++ ";"
  | array element => "[" ++ element.descriptor

/-- A type of values: neither void nor an array of it, with class names that are not empty and hold
no semicolon. -/
def IsValueType : TypeTerm → Prop
  | void => False
  | primitive _ => True
  | reference name => name ≠ "" ∧ ';' ∉ name.toList
  | array element => element.IsValueType

end TypeTerm

def FieldType.term : FieldType → TypeTerm
  | primitive kind => .primitive kind
  | reference name => .reference name
  | array element => .array element.term

def ResultType.term : ResultType → TypeTerm
  | none => .void
  | some type => type.term

namespace FieldType

theorem descriptor_term (type : FieldType) : type.term.descriptor = type.descriptor := by
  induction type with
  | primitive kind => rfl
  | reference name => rfl
  | array element ih => simp [term, TypeTerm.descriptor, descriptor, ih]

theorem isValueType_term (type : FieldType) : type.term.IsValueType ↔ type.ProperNames := by
  induction type with
  | primitive kind => rfl
  | reference name => rfl
  | array element ih => exact ih

theorem exists_of_isValueType {term : TypeTerm} (value : term.IsValueType) :
    ∃ type : FieldType, type.term = term ∧ type.ProperNames := by
  induction term with
  | void => exact value.elim
  | primitive kind => exact ⟨.primitive kind, rfl, trivial⟩
  | reference name => exact ⟨.reference name, rfl, value⟩
  | array element ih =>
      obtain ⟨type, rfl, proper⟩ := ih value
      exact ⟨.array type, rfl, proper⟩

theorem exists_of_forall_isValueType {terms : List TypeTerm}
    (values : ∀ term ∈ terms, term.IsValueType) :
    ∃ types : List FieldType, types.map term = terms ∧ ∀ type ∈ types, type.ProperNames := by
  induction terms with
  | nil => exact ⟨[], rfl, by simp⟩
  | cons first others ih =>
      obtain ⟨here, later⟩ := List.forall_mem_cons.mp values
      obtain ⟨type, rfl, proper⟩ := exists_of_isValueType here
      obtain ⟨types, rfl, all⟩ := ih later
      exact ⟨type :: types, rfl, List.forall_mem_cons.mpr ⟨proper, all⟩⟩

theorem exists_ofDescriptor?_iff {text : String} {term : TypeTerm} :
    (∃ type : FieldType, ofDescriptor? text = some type ∧ type.term = term) ↔
      text = term.descriptor ∧ term.IsValueType := by
  constructor
  · rintro ⟨type, read, rfl⟩
    rw [descriptor_term, isValueType_term]
    exact ofDescriptor?_eq_some_iff.mp read
  · rintro ⟨rfl, value⟩
    obtain ⟨type, rfl, proper⟩ := exists_of_isValueType value
    exact ⟨type, ofDescriptor?_eq_some_iff.mpr ⟨descriptor_term type, proper⟩, rfl⟩

end FieldType

namespace ResultType

theorem descriptor_term (result : ResultType) :
    (term result).descriptor = ResultType.descriptor result := by
  cases result with
  | none => rfl
  | some type => exact type.descriptor_term

theorem isValueType_term (result : ResultType) :
    (term result = .void ∨ (term result).IsValueType) ↔ ProperNames result := by
  cases result with
  | none => exact ⟨fun _ => trivial, fun _ => .inl rfl⟩
  | some type =>
      have value : type.term ≠ .void := by cases type <;> simp [FieldType.term]
      simp [term, ProperNames, value, type.isValueType_term]

theorem exists_of_isValueType {term : TypeTerm} (value : term = .void ∨ term.IsValueType) :
    ∃ result : ResultType, ResultType.term result = term := by
  rcases value with rfl | value
  · exact ⟨none, rfl⟩
  · obtain ⟨type, same, _⟩ := FieldType.exists_of_isValueType value
    exact ⟨some type, same⟩

end ResultType

namespace MethodType

theorem descriptor_eq_terms (type : MethodType) :
    type.descriptor = "(" ++ String.join ((type.params.map FieldType.term).map TypeTerm.descriptor) ++
      ")" ++ (ResultType.term type.result).descriptor := by
  have same : TypeTerm.descriptor ∘ FieldType.term = FieldType.descriptor :=
    funext FieldType.descriptor_term
  rw [descriptor, ResultType.descriptor_term, List.map_map, same]

theorem exists_ofDescriptor?_iff {text : String} {params : List TypeTerm} {result : TypeTerm} :
    (∃ type : MethodType, ofDescriptor? text = some type ∧ type.params.map FieldType.term = params ∧
        ResultType.term type.result = result) ↔
      text = "(" ++ String.join (params.map TypeTerm.descriptor) ++ ")" ++ result.descriptor ∧
        (∀ param ∈ params, param.IsValueType) ∧ (result = .void ∨ result.IsValueType) := by
  constructor
  · rintro ⟨type, read, rfl, rfl⟩
    obtain ⟨rfl, proper, last⟩ := ofDescriptor?_eq_some_iff.mp read
    refine ⟨descriptor_eq_terms type, ?_, (ResultType.isValueType_term _).mpr last⟩
    intro term member
    obtain ⟨param, given, rfl⟩ := List.mem_map.mp member
    exact param.isValueType_term.mpr (proper param given)
  · rintro ⟨rfl, values, last⟩
    obtain ⟨params, rfl, proper⟩ := FieldType.exists_of_forall_isValueType values
    obtain ⟨result, rfl⟩ := ResultType.exists_of_isValueType last
    refine ⟨{ params, result }, ?_, rfl, rfl⟩
    rw [ofDescriptor?_eq_some_iff, descriptor_eq_terms]
    exact ⟨rfl, proper, (ResultType.isValueType_term _).mp last⟩

end MethodType

/-- Descriptors are read as field and method types exactly if the printer makes them of such types,
and a reader by byte offsets gives the same answers on every text without a bad slice. -/
theorem descriptor_readers_invert_printer :
    (∀ (text : String) (term : TypeTerm),
      (∃ type, FieldType.parse text = .ok type ∧ type.term = term) ↔
        text = term.descriptor ∧ term.IsValueType) ∧
    (∀ (text : String) (params : List TypeTerm) (result : TypeTerm),
      (∃ type, MethodType.parse text = .ok type ∧ type.params.map FieldType.term = params ∧
          ResultType.term type.result = result) ↔
        text = "(" ++ String.join (params.map TypeTerm.descriptor) ++ ")" ++ result.descriptor ∧
          (∀ param ∈ params, param.IsValueType) ∧ (result = .void ∨ result.IsValueType)) ∧
    ∀ text : String,
      DescriptorBytes.fieldType text = .ok (FieldType.parse text).toOption ∧
      DescriptorBytes.methodType text = .ok (MethodType.parse text).toOption ∧
      ∀ offset, DescriptorBytes.typeAt text offset = .ok (ResultType.readAt? text offset) := by
  refine ⟨fun text term => ?_, fun text params result => ?_, fun text => ⟨?_, ?_, ?_⟩⟩
  · simp only [FieldType.parse_eq_ok_iff]
    exact FieldType.exists_ofDescriptor?_iff
  · simp only [MethodType.parse_eq_ok_iff]
    exact MethodType.exists_ofDescriptor?_iff
  · rw [DescriptorBytes.fieldType_eq, FieldType.toOption_parse]
  · rw [DescriptorBytes.methodType_eq, MethodType.toOption_parse]
  · exact DescriptorBytes.typeAt_eq text

end BytecodeToC
