import BytecodeToC.Descriptor

/-!
C names for classes, members, types and methods. Every name here is made of ASCII letters, digits
and underscores: separators become underscores and any other character its code point in hex.
`com/example/Foo.add(II)I` is called `com_example_Foo_add___int_int_R_int`.
-/

namespace BytecodeToC

namespace Symbol

def hexPadded (width value : Nat) : List Char :=
  let digits := Nat.toDigits 16 value
  List.replicate (width - digits.length) '0' ++ digits

def ofChar (c : Char) : List Char :=
  if c = '/' ∨ c = '.' ∨ c = '-' then ['_']
  else if c.isAlphanum ∨ c = '_' then [c]
  else '_' :: hexPadded 5 c.toNat

def ofClass (name : String) : String := String.ofList (name.toList.flatMap ofChar)

def ofMember : String → String
  | "<init>" => "__INIT__"
  | "<clinit>" => "__CLINIT__"
  | name => ofClass name

def peelArrays : FieldType → FieldType × Nat
  | .array element =>
    let (inner, dimensions) := peelArrays element
    (inner, dimensions + 1)
  | type => (type, 0)

def ofScalar : FieldType → String
  | .primitive kind => kind.keyword
  | .reference name => ofClass name
  | .array element => ofScalar element

def ofType (type : FieldType) : String :=
  match peelArrays type with
  | (inner, 0) => ofScalar inner
  | (inner, dimensions) => ofScalar inner ++ "_" ++ toString dimensions ++ "ARRAY"

def ofResult : ResultType → String
  | none => "void"
  | some type => ofType type

def ofMethod (owner name : String) (type : MethodType) : String :=
  let params := String.join (type.params.map fun param => "_" ++ ofType param)
  let result := match type.result with
    | none => ""
    | some result => "_R_" ++ ofType result
  ofClass owner ++ "_" ++ ofMember name ++ "__" ++ params ++ result

def ofDescriptor (owner name descriptor : String) : Except Error String :=
  (MethodType.parse descriptor).map (ofMethod owner name)

/-- The structure that identifies a class at run time, `class__java_lang_String` or
`class_array2__JAVA_INT`. -/
def classIdentity (typeName : String) : String :=
  match TypeName.dimensions typeName with
  | 0 => "class__" ++ ofClass typeName
  | dimensions =>
    let element := match TypeName.elementClass? typeName with
      | some name => ofClass name
      | none => ((TypeName.leadingPrimitive? typeName).map Primitive.cType).getD "JAVA_OBJECT"
    "class_array" ++ toString dimensions ++ "__" ++ element

def classId (name : String) : String := "CLASS_ID_" ++ ofClass name

end Symbol

end BytecodeToC
