import BytecodeToC.Error

/-!
Types as class files write them. A field descriptor is one type; a method descriptor is a list of
parameter types in parentheses and a result, which may be void. Void is not a `FieldType`: a result
is an `Option FieldType`, so no parameter, field or array element is ever void.

Readers work on the characters and return what follows the text they read.
-/

namespace BytecodeToC

inductive Primitive where
  | int
  | long
  | float
  | double
  | byte
  | char
  | short
  | boolean
deriving DecidableEq, Repr

namespace Primitive

def letter : Primitive → Char
  | int => 'I'
  | long => 'J'
  | float => 'F'
  | double => 'D'
  | byte => 'B'
  | char => 'C'
  | short => 'S'
  | boolean => 'Z'

def ofLetter? : Char → Option Primitive
  | 'I' => some int
  | 'J' => some long
  | 'F' => some float
  | 'D' => some double
  | 'B' => some byte
  | 'C' => some char
  | 'S' => some short
  | 'Z' => some boolean
  | _ => none

def cType : Primitive → String
  | int => "JAVA_INT"
  | long => "JAVA_LONG"
  | float => "JAVA_FLOAT"
  | double => "JAVA_DOUBLE"
  | byte => "JAVA_BYTE"
  | char => "JAVA_CHAR"
  | short => "JAVA_SHORT"
  | boolean => "JAVA_BOOLEAN"

def keyword : Primitive → String
  | int => "int"
  | long => "long"
  | float => "float"
  | double => "double"
  | byte => "byte"
  | char => "char"
  | short => "short"
  | boolean => "boolean"

def stackType : Primitive → StackType
  | long => .long
  | float => .float
  | double => .double
  | _ => .int

def elementType : Primitive → ElementType
  | int => .int
  | long => .long
  | float => .float
  | double => .double
  | byte | boolean => .byte
  | char => .char
  | short => .short

def arrayCode : Primitive → Int32
  | boolean => 4
  | char => 5
  | float => 6
  | double => 7
  | byte => 8
  | short => 9
  | int => 10
  | long => 11

def all : List Primitive := [int, long, float, double, byte, char, short, boolean]

def ofArrayCode? (code : Int32) : Option Primitive := all.find? (·.arrayCode = code)

def ofKeyword? (word : String) : Option Primitive := all.find? (·.keyword = word)

@[simp] theorem ofLetter?_letter (primitive : Primitive) : ofLetter? primitive.letter = some primitive := by
  cases primitive <;> rfl

theorem letter_of_ofLetter? {c : Char} {primitive : Primitive} (found : ofLetter? c = some primitive) :
    primitive.letter = c := by
  unfold ofLetter? at found
  split at found <;> simp_all <;> subst found <;> rfl

end Primitive

inductive FieldType where
  | primitive (kind : Primitive)
  /-- An internal class name, such as `java/lang/String`. -/
  | reference (name : String)
  | array (element : FieldType)
deriving DecidableEq, Repr

namespace FieldType

def descriptor : FieldType → String
  | primitive kind => String.singleton kind.letter
  | reference name => "L" ++ name ++ ";"
  | array element => "[" ++ element.descriptor

def isObject : FieldType → Bool
  | primitive _ => false
  | _ => true

def stackType : FieldType → StackType
  | primitive kind => kind.stackType
  | _ => .object

def width : FieldType → Nat
  | primitive .long | primitive .double => 2
  | _ => 1

def cType : FieldType → String
  | primitive kind => kind.cType
  | _ => "JAVA_OBJECT"

def read? : List Char → Option (FieldType × List Char)
  | [] => none
  | '[' :: rest => (read? rest).map fun (element, after) => (array element, after)
  | 'L' :: rest =>
    match rest.takeWhile (· ≠ ';'), rest.dropWhile (· ≠ ';') with
    | name, _ :: after => if name = [] then none else some (reference (String.ofList name), after)
    | _, [] => none
  | c :: rest => (Primitive.ofLetter? c).map fun kind => (primitive kind, rest)

theorem length_of_read? {text : List Char} {type : FieldType} {rest : List Char}
    (found : read? text = some (type, rest)) : rest.length < text.length := by
  induction text generalizing type rest with
  | nil => simp [read?] at found
  | cons c tail ih =>
    unfold read? at found
    split at found
    · contradiction
    · rename_i inner same
      simp only [List.cons.injEq] at same
      obtain ⟨_, rfl⟩ := same
      cases next : read? tail with
      | none => simp [next] at found
      | some pair =>
        simp only [next, Option.map_some, Option.some.injEq, Prod.mk.injEq] at found
        have shorter : pair.2.length < tail.length := ih next
        obtain ⟨_, rfl⟩ := found
        simp only [List.length_cons]
        omega
    · rename_i inner same
      simp only [List.cons.injEq] at same
      obtain ⟨_, rfl⟩ := same
      split at found
      · rename_i semicolon after split
        split at found
        · contradiction
        · simp only [Option.some.injEq, Prod.mk.injEq] at found
          obtain ⟨_, rfl⟩ := found
          have bound := (List.dropWhile_sublist (l := tail) (· ≠ ';')).length_le
          rw [split] at bound
          simp only [List.length_cons] at bound ⊢
          omega
      · contradiction
    · rename_i head inner _ _ same
      simp only [List.cons.injEq] at same
      obtain ⟨rfl, rfl⟩ := same
      cases kind : Primitive.ofLetter? c with
      | none => simp [kind] at found
      | some primitive =>
        simp only [kind, Option.map_some, Option.some.injEq, Prod.mk.injEq] at found
        obtain ⟨_, rfl⟩ := found
        simp

def ofDescriptor? (text : String) : Option FieldType :=
  match read? text.toList with
  | some (type, []) => some type
  | _ => none

def parse (text : String) : Except Error FieldType :=
  match ofDescriptor? text with
  | some type => .ok type
  | none => .error (.unsupported (.fieldDescriptor text))

end FieldType

abbrev ResultType := Option FieldType

namespace ResultType

def descriptor : ResultType → String
  | none => "V"
  | some type => type.descriptor

def cType : ResultType → String
  | none => "JAVA_VOID"
  | some type => type.cType

def width : ResultType → Nat
  | none => 0
  | some type => type.width

def read? : List Char → Option (ResultType × List Char)
  | 'V' :: rest => some (none, rest)
  | text => (FieldType.read? text).map fun (type, rest) => (some type, rest)

/-- Characters left after skipping that many bytes, if that is the start of a character. -/
def dropBytes? : Nat → List Char → Option (List Char)
  | 0, text => some text
  | _ + 1, [] => none
  | count, c :: rest => if c.utf8Size ≤ count then dropBytes? (count - c.utf8Size) rest else none

/-- The type or void at a byte offset, with the offset just past it. -/
def readAt? (text : String) (offset : Nat) : Option (ResultType × Nat) := do
  let rest ← dropBytes? offset text.toList
  let (result, after) ← read? rest
  some (result, text.utf8ByteSize - (String.ofList after).utf8ByteSize)

end ResultType

structure MethodType where
  params : List FieldType
  result : ResultType
deriving DecidableEq, Repr

namespace MethodType

def descriptor (type : MethodType) : String :=
  "(" ++ String.join (type.params.map FieldType.descriptor) ++ ")" ++ ResultType.descriptor type.result

def readParams? (text : List Char) : Option (List FieldType × List Char) :=
  match text with
  | ')' :: rest => some ([], rest)
  | text =>
    match _found : FieldType.read? text with
    | none => none
    | some (type, rest) => (readParams? rest).map fun (types, after) => (type :: types, after)
termination_by text.length
decreasing_by exact FieldType.length_of_read? ‹_›

def ofDescriptor? (text : String) : Option MethodType :=
  match text.toList with
  | '(' :: inner => do
    let (params, rest) ← readParams? inner
    match ResultType.read? rest with
    | some (result, []) => some { params, result }
    | _ => none
  | _ => none

def parse (text : String) : Except Error MethodType :=
  match ofDescriptor? text with
  | some type => .ok type
  | none => .error (.unsupported (.methodDescriptor text))

end MethodType

/-!
Type operands are class names or array descriptors. The functions below look only at the front of
such a name and accept any text.
-/

namespace TypeName

def dimensions (name : String) : Nat := (name.toList.takeWhile (· = '[')).length

def element (name : String) : String := String.ofList (name.toList.dropWhile (· = '['))

def isArray (name : String) : Bool := name.toList.head? = some '['

def classOfElement? : List Char → Option (List Char)
  | 'L' :: rest => if rest.getLast? = some ';' then some rest.dropLast else some ('L' :: rest)
  | [c] => if (Primitive.ofLetter? c).isSome then none else some [c]
  | text => some text

def elementClass? (name : String) : Option String :=
  (classOfElement? (element name).toList).map String.ofList

def leadingPrimitive? (name : String) : Option Primitive :=
  (element name).toList.head?.bind Primitive.ofLetter?

def primitiveElement? (name : String) : Option String :=
  match elementClass? name with
  | some _ => none
  | none => (leadingPrimitive? name).map Primitive.cType

def elementType (name : String) : Except Error ElementType :=
  match (element name).toList with
  | 'L' :: _ => .ok .object
  | c :: _ =>
    match Primitive.ofLetter? c with
    | some kind => .ok kind.elementType
    | none => .error (.unsupported (.elementType name))
  | [] => .error (.unsupported (.elementType name))

def isValid (name : String) : Bool :=
  if isArray name then (FieldType.ofDescriptor? name).isSome
  else !name.isEmpty && name.toList.all fun c => c ≠ ';' && c ≠ '['

end TypeName

end BytecodeToC
