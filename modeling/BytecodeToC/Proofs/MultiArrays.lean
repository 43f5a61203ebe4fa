import BytecodeToC.LoweredUnit
import BytecodeToC.Proofs.Descriptors
import BytecodeToC.Proofs.Result

/-!
Allocation of several dimensions. Only the brackets of the descriptor and the character behind them
are looked at. Every array type within the limits is therefore accepted, and so is a text that starts
like one and goes on with something else.
-/

namespace BytecodeToC

open Result

/-! Element texts -/

namespace TypeName

def opensType : List Char → Bool
  | [] => false
  | 'L' :: _ => true
  | c :: _ => (Primitive.ofLetter? c).isSome

def isEndedName (text : List Char) : Bool :=
  text.dropLast ≠ [] && !text.dropLast.contains ';' && text.getLast? = some ';'

/-- Starts like a type but is not one type: a primitive's letter with more text behind it, or an `L`
that a class name and its semicolon do not complete. -/
def isStray : List Char → Bool
  | [] => false
  | 'L' :: rest => !isEndedName rest
  | c :: rest => (Primitive.ofLetter? c).isSome && rest ≠ []

theorem isEndedName_iff {text : List Char} :
    isEndedName text = true ↔ ∃ name, name ≠ [] ∧ ';' ∉ name ∧ text = name ++ [';'] := by
  constructor
  · intro ended
    simp only [isEndedName, Bool.and_eq_true, decide_eq_true_eq, Bool.not_eq_true',
      ← Bool.not_eq_true, List.contains_iff_mem] at ended
    obtain ⟨⟨written, plain⟩, last⟩ := ended
    obtain ⟨name, rfl⟩ := List.getLast?_eq_some_iff.mp last
    rw [List.dropLast_concat] at written plain
    exact ⟨name, written, plain, rfl⟩
  · rintro ⟨name, written, plain, rfl⟩
    simp [isEndedName, written, plain]

theorem opensType_cons {c : Char} (other : c ≠ 'L') (rest : List Char) :
    opensType (c :: rest) = (Primitive.ofLetter? c).isSome := by
  rw [opensType]
  exact other

theorem isStray_cons {c : Char} (other : c ≠ 'L') (rest : List Char) :
    isStray (c :: rest) = ((Primitive.ofLetter? c).isSome && rest ≠ []) := by
  rw [isStray]
  exact other

theorem opensType_of_isStray {text : List Char} (stray : isStray text = true) :
    opensType text = true := by
  cases text with
  | nil => simp [isStray] at stray
  | cons c rest =>
      by_cases isClass : c = 'L'
      · subst isClass
        rfl
      · rw [isStray_cons isClass, Bool.and_eq_true] at stray
        rw [opensType_cons isClass]
        exact stray.1

theorem toList_eq (name : String) :
    name.toList = List.replicate (dimensions name) '[' ++ (element name).toList := by
  have brackets : name.toList.takeWhile (· = '[') = List.replicate (dimensions name) '[' := by
    refine List.eq_replicate_of_mem fun c member => ?_
    simpa using List.all_eq_true.mp List.all_takeWhile c member
  rw [← brackets, element, String.toList_ofList, List.takeWhile_append_dropWhile]

theorem head?_element (name : String) : (element name).toList.head? ≠ some '[' := by
  intro bracket
  have first := List.head?_dropWhile_not (· = '[') name.toList
  rw [element, String.toList_ofList] at bracket
  simp [bracket] at first

theorem exists_elementType_iff (name : String) :
    (∃ kind, elementType name = .ok kind) ↔ opensType (element name).toList = true := by
  unfold elementType
  cases spelled : (element name).toList with
  | nil => simp [opensType]
  | cons c rest =>
      by_cases isClass : c = 'L'
      · subst isClass
        simp [opensType]
      · rw [opensType_cons isClass]
        cases known : Primitive.ofLetter? c <;> simp [known]

end TypeName

namespace FieldType

theorem exists_read?_brackets_iff (dimensions : Nat) (text rest : List Char) :
    (∃ type, read? (List.replicate dimensions '[' ++ text) = some (type, rest)) ↔
      ∃ type, read? text = some (type, rest) := by
  induction dimensions with
  | zero => rfl
  | succ dimensions ih =>
      rw [List.replicate_succ, List.cons_append, ← ih, read?]
      constructor
      · rintro ⟨type, found⟩
        obtain ⟨⟨element, after⟩, inner, same⟩ := Option.map_eq_some_iff.mp found
        cases same
        exact ⟨element, inner⟩
      · rintro ⟨element, inner⟩
        exact ⟨array element, by rw [inner]; rfl⟩

theorem exists_read?_iff {text : List Char} (scalar : text.head? ≠ some '[') :
    (∃ type, read? text = some (type, [])) ↔
      TypeName.opensType text = true ∧ TypeName.isStray text = false := by
  constructor
  · rintro ⟨type, found⟩
    generalize ending : ([] : List Char) = rest at found
    cases spelled_of_read? found with
    | letter kind =>
        cases kind <;> simp [TypeName.opensType, TypeName.isStray, Primitive.ofLetter?,
          Primitive.letter, ← ending]
    | @name name written plain =>
        subst ending
        have ended := TypeName.isEndedName_iff.mpr ⟨name, written, plain, rfl⟩
        simp [TypeName.opensType, TypeName.isStray, ended]
    | bracket inner => simp at scalar
  · rintro ⟨opens, whole⟩
    cases text with
    | nil => simp [TypeName.opensType] at opens
    | cons c rest =>
        by_cases isClass : c = 'L'
        · subst isClass
          obtain ⟨name, written, plain, rfl⟩ := TypeName.isEndedName_iff.mp
            (by simpa [TypeName.isStray] using whole)
          exact ⟨_, (Spelled.name written plain []).read?⟩
        · rw [TypeName.opensType_cons isClass] at opens
          rw [TypeName.isStray_cons isClass, opens] at whole
          obtain ⟨kind, known⟩ := Option.isSome_iff_exists.mp opens
          obtain rfl : rest = [] := by simpa using whole
          rw [← Primitive.letter_of_ofLetter? known]
          exact ⟨_, (Spelled.letter kind []).read?⟩

theorem exists_parse_iff (text : String) :
    (∃ type, parse text = .ok type) ↔
      TypeName.opensType (TypeName.element text).toList = true ∧
        TypeName.isStray (TypeName.element text).toList = false := by
  have whole : (∃ type, parse text = .ok type) ↔ ∃ type, read? text.toList = some (type, []) := by
    refine exists_congr fun type => ?_
    rw [parse_eq_ok_iff, ofDescriptor?]
    split <;> simp_all
  rw [whole, TypeName.toList_eq, exists_read?_brackets_iff,
    exists_read?_iff (TypeName.head?_element text)]

end FieldType

/-! Allocation -/

namespace Emission

open C

def WithinLimits (descriptor : String) (count : Nat) : Prop :=
  TypeName.dimensions descriptor ≤ 4 ∧ 1 ≤ count ∧ count ≤ TypeName.dimensions descriptor

theorem arrayIdentities_eq_map (element : String) (dimensions : Nat) :
    arrayIdentities element dimensions = (List.range dimensions).reverse.map fun d =>
      Symbol.classIdentity (String.ofList (List.replicate (d + 1) '[') ++ element) := by
  induction dimensions with
  | zero => rfl
  | succ dimensions ih => simp [arrayIdentities, ih, List.range_succ]

theorem exists_backref_of_mem {identities : List String} {stmt : Stmt}
    (member : stmt ∈ backrefs identities) : ∃ outer inner, stmt = .classBackref outer inner := by
  match identities with
  | [] | [_] => simp [backrefs] at member
  | outer :: inner :: rest =>
      rcases List.mem_cons.mp member with rfl | later
      · exact ⟨outer, inner, rfl⟩
      · exact exists_backref_of_mem later

/-- Pops the lengths that are given, the last one first, and passes them in order, then minus one for
each dimension without a length, then the identities of the array types from the outermost inwards. -/
def Allocates (descriptor : String) (count : Nat) (items : List Item) : Prop :=
  ∃ links size, (∀ stmt ∈ links, ∃ outer inner, stmt = Stmt.classBackref outer inner) ∧
    items = [.block
      ((List.range count).reverse.map (fun d => .pop .int ("__dim" ++ toString d)) ++ links ++
        [.pushFresh (.multiArray (TypeName.dimensions descriptor)
          ((List.range count).map (fun d => "__dim" ++ toString d) ++
            List.replicate (TypeName.dimensions descriptor - count) "-1" ++
            (List.range (TypeName.dimensions descriptor)).reverse.map (fun d =>
              "&" ++ Symbol.classIdentity
                (String.ofList (List.replicate (d + 1) '[') ++ TypeName.element descriptor)) ++
            [size]))])]

section

variable {descriptor : String} {count : Nat}

theorem allocates_of_withinLimits (limits : WithinLimits descriptor count) {kind : ElementType}
    (known : TypeName.elementType descriptor = .ok kind) :
    ∃ items, multiArray descriptor count = .ok items ∧ Allocates descriptor count items := by
  obtain ⟨most, least, given⟩ := limits
  have shallow : ¬dimensionLimit < TypeName.dimensions descriptor := by
    simp only [dimensionLimit]
    omega
  have counted : ¬(count = 0 ∨ TypeName.dimensions descriptor < count) := by omega
  rw [multiArray, if_neg shallow, if_neg counted, known]
  refine ⟨_, rfl, if kind = .object then
    backrefs (arrayIdentities (TypeName.element descriptor) (TypeName.dimensions descriptor)) else [],
    ?size, ?links, ?emitted⟩
  case emitted =>
    rw [arrayIdentities_eq_map, List.map_map]
    rfl
  case links =>
    intro stmt member
    split at member
    · exact exists_backref_of_mem member
    · simp at member

theorem withinLimits_of_multiArray {items : List Item}
    (success : multiArray descriptor count = .ok items) :
    WithinLimits descriptor count ∧ ∃ kind, TypeName.elementType descriptor = .ok kind := by
  unfold multiArray at success
  dsimp only at success
  split at success
  next => cases success
  next shallow =>
    split at success
    next => cases success
    next counted =>
      obtain ⟨kind, known, _⟩ := (bind_eq_ok_iff ..).mp success
      simp only [dimensionLimit] at shallow
      exact ⟨⟨by omega, by omega, by omega⟩, kind, known⟩

theorem exists_multiArray_iff :
    (∃ items, multiArray descriptor count = .ok items) ↔
      WithinLimits descriptor count ∧
        TypeName.opensType (TypeName.element descriptor).toList = true := by
  rw [← TypeName.exists_elementType_iff]
  constructor
  · rintro ⟨items, success⟩
    exact withinLimits_of_multiArray success
  · rintro ⟨limits, kind, known⟩
    obtain ⟨items, success, _⟩ := allocates_of_withinLimits limits known
    exact ⟨items, success⟩

theorem allocates_of_multiArray {items : List Item}
    (success : multiArray descriptor count = .ok items) : Allocates descriptor count items := by
  obtain ⟨limits, kind, known⟩ := withinLimits_of_multiArray success
  obtain ⟨made, again, allocates⟩ := allocates_of_withinLimits limits known
  rw [success] at again
  cases again
  exact allocates

end

end Emission

open Emission

/-- An allocation is accepted within the limits if the element starts like a type. These are the array
types within the limits unless more or less than one type follows the brackets. -/
theorem multi_array_accepts_types_iff (descriptor : String) (count : Nat) :
    ((∃ items, multiArray descriptor count = .ok items) ↔
      WithinLimits descriptor count ∧
        TypeName.opensType (TypeName.element descriptor).toList = true) ∧
    (((∃ items, multiArray descriptor count = .ok items) ↔
        (∃ type, FieldType.parse descriptor = .ok type) ∧ WithinLimits descriptor count) ↔
      ¬(WithinLimits descriptor count ∧
        TypeName.isStray (TypeName.element descriptor).toList = true)) ∧
    ∀ items, multiArray descriptor count = .ok items → Allocates descriptor count items := by
  refine ⟨exists_multiArray_iff, ?_, fun items success => allocates_of_multiArray success⟩
  rw [exists_multiArray_iff, FieldType.exists_parse_iff]
  cases stray : TypeName.isStray (TypeName.element descriptor).toList with
  | false => simp [and_comm]
  | true =>
      have opens := TypeName.opensType_of_isStray stray
      simp [opens]

def Sample.unended : Program :=
  { classes :=
      [{ name := "t/Main", superName := none, fields := []
         methods :=
           [{ name := "run", descriptor := "()V", isStatic := true, maxStack := 2, maxLocals := 0
              code :=
                [.simple "iconst_2" none, .simple "iconst_3" none,
                 .multiArray "[[Ljava/lang/String" 2, .simple "pop" none, .simple "return" none]
              tryCatch := [] }] }] }

theorem unended_class_name_allocated :
    (∃ unit, Sample.unended.lower {} = .ok unit) ∧
      ¬(∃ type, FieldType.parse "[[Ljava/lang/String" = .ok type) ∧
      ¬((∃ items, Emission.multiArray "[[Ljava/lang/String" 2 = .ok items) ↔
        (∃ type, FieldType.parse "[[Ljava/lang/String" = .ok type) ∧
          Emission.WithinLimits "[[Ljava/lang/String" 2) := by
  obtain ⟨_, exactly, _⟩ := multi_array_accepts_types_iff "[[Ljava/lang/String" 2
  have accepted : (Sample.unended.lower {}).toBool = true := by decide +kernel
  obtain ⟨unit, success⟩ := (toBool_eq_true_iff _).mp accepted
  have limits : Emission.WithinLimits "[[Ljava/lang/String" 2 := by
    refine ⟨?_, ?_, ?_⟩ <;> decide +kernel
  refine ⟨⟨unit, (toOption_eq_some_iff ..).mp success⟩, ?_, ?_⟩
  · rw [FieldType.exists_parse_iff]
    decide +kernel
  · intro agree
    exact exactly.mp agree ⟨limits, by decide +kernel⟩

end BytecodeToC
