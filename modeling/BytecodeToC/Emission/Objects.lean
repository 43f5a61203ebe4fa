import BytecodeToC.Emission.Context

/-!
Lowering of field accesses, allocation, arrays, casts and monitors.
-/

namespace BytecodeToC

namespace Emission

open C

def staticField (index : ClassIndex) (access : FieldAccess) (type : StackType) : List Item :=
  let owner := index.staticFieldOwner access.owner access.name
  if access.op = .getstatic then
    [.stmt (.pushCall type
      { function := FieldAccess.accessor "get_static" owner access.name, args := [threadState] })]
  else
    let setter := FieldAccess.accessor "set_static" owner access.name
    if type = .object then
      [.block
        [.pop type "__value", .set { function := setter, args := [threadState, "__value"] },
         .release "__value"]]
    else [.stmt (.setPopped setter type)]

def readField (context : MethodContext) (access : FieldAccess) (type : StackType) :
    Except Error (List Item) :=
  let getter := FieldAccess.accessor "get_field" access.owner access.name
  if access.useThis then
    (context.currentObject "getfield").map fun this =>
      [.stmt (.pushCall type { function := getter, args := [this] })]
  else
    .ok
      [.block
        [.pop .object "__object", .checkNull "__object",
         .pushCall type { function := getter, args := ["__object"] }, .release "__object"]]

def releaseIf (condition : Bool) (name : String) : List Stmt :=
  if condition then [.release name] else []

def writeField (context : MethodContext) (access : FieldAccess) (type : StackType) :
    Except Error (List Item) :=
  let setter := FieldAccess.accessor "set_field" access.owner access.name
  let store (object : String) : Stmt :=
    .set { function := setter, args := [threadState, "__value", object] }
  if access.useThis then
    (context.currentObject "putfield").map fun this =>
      [.block ([.pop type "__value", store this] ++ releaseIf (type = .object) "__value")]
  else
    .ok
      [.block
        ([.pop type "__value", .pop .object "__object", .checkNull "__object", store "__object"]
          ++ releaseIf (type = .object) "__value" ++ [.release "__object"])]

def fieldAccess (context : MethodContext) (access : FieldAccess) : Except Error (List Item) := do
  let type := (← access.type).stackType
  match access.op with
  | .getstatic | .putstatic => .ok (staticField context.index access type)
  | .getfield => readField context access type
  | .putfield => writeField context access type
  | other => .error (.unsupported (.notFieldAccess other))

def elementText (element : ElementType) : String :=
  "ARRAY_ELEMENT_" ++ element.suffix ++ "(__array, __index)"

def arrayLoad (element : ElementType) : List Item :=
  [.block
    [.pop .int "__index", .pop .object "__array", .checkArrayAccess "__array" "__index",
     .push element.stackType (elementText element), .release "__array"]]

/-- A stored object becomes a reference of the array, in place of the old element. -/
def arrayStore (element : ElementType) : List Item :=
  let store : List Stmt :=
    if element.stackType = .object then
      [.release (elementText element), .assign (elementText element) "__value",
       .retain "__value", .release "__value"]
    else [.assign (elementText element) "__value"]
  [.block
    ([.pop element.stackType "__value", .pop .int "__index", .pop .object "__array",
      .checkArrayAccess "__array" "__index"] ++ store ++ [.release "__array"])]

def arrayLength : List Item :=
  [.block
    [.pop .object "__array", .push .int "CHECKED_ARRAY_LENGTH(__array)", .release "__array"]]

def newPrimitiveArray (code : Option Int32) : Except Error (List Item) :=
  match code.bind Primitive.ofArrayCode? with
  | some primitive =>
    let identity := Symbol.classIdentity ("[" ++ String.singleton primitive.letter)
    .ok [.stmt (.pushFresh (.array identity primitive.cType 1))]
  | none => .error (.unsupported (.arrayCode code))

/-- The runtime allocates arrays of at most this many dimensions. -/
def dimensionLimit : Nat := 4

def newReferenceArray (typeName : String) : Except Error (List Item) :=
  let descriptor :=
    if TypeName.isArray typeName then "[" ++ typeName else "[L" ++ typeName ++ ";"
  let dimensions := TypeName.dimensions descriptor
  if dimensionLimit < dimensions then
    .error (.unsupported (.tooManyDimensions descriptor dimensionLimit))
  else
    .ok [.stmt (.pushFresh (.array (Symbol.classIdentity descriptor) "JAVA_OBJECT" dimensions))]

def typeOperation (op : Opcode) (typeName : String) : Except Error (List Item) :=
  match op with
  | .new =>
    if TypeName.isArray typeName then .error (.unsupported (.newOfArray typeName))
    else .ok [.stmt (.pushFresh (.object (Symbol.ofClass typeName)))]
  | .anewarray => newReferenceArray typeName
  | .checkcast =>
    .ok
      [.block
        [.pop .object "__object", .checkCast "__object" (Symbol.classIdentity typeName),
         .pushMoved "__object"]]
  | .instanceof =>
    .ok
      [.block
        [.pop .object "__object",
         .push .int ("INSTANCE_OF(__object, &" ++ Symbol.classIdentity typeName ++ ")"),
         .release "__object"]]
  | other => .error (.unsupported (.notTypeOperation other))

def dimensionName (dimension : Nat) : String := "__dim" ++ toString dimension

/-- Class identities of an array type and of its elements that are arrays, outermost first. -/
def arrayIdentities (element : String) : Nat → List String
  | 0 => []
  | dimensions + 1 =>
    let brackets := String.ofList (List.replicate (dimensions + 1) '[')
    Symbol.classIdentity (brackets ++ element) :: arrayIdentities element dimensions

def backrefs : List String → List Stmt
  | outer :: inner :: rest => .classBackref outer inner :: backrefs (inner :: rest)
  | _ => []

/-- Allocation of several dimensions at once. Dimensions without a length get minus one. -/
def multiArray (descriptor : String) (count : Nat) : Except Error (List Item) :=
  let total := TypeName.dimensions descriptor
  if dimensionLimit < total then
    .error (.unsupported (.tooManyDimensions descriptor dimensionLimit))
  else if count = 0 ∨ total < count then
    .error (.unsupported (.dimensionCount descriptor count))
  else do
    let element ← TypeName.elementType descriptor
    let elementC :=
      if element = .object then "JAVA_OBJECT"
      else ((TypeName.leadingPrimitive? descriptor).map Primitive.cType).getD "JAVA_OBJECT"
    let identities := arrayIdentities (TypeName.element descriptor) total
    let pops := (List.range count).reverse.map fun d => Stmt.pop .int (dimensionName d)
    let links := if element = .object then backrefs identities else []
    let args := (List.range count).map dimensionName ++ List.replicate (total - count) "-1" ++
      identities.map ("&" ++ ·) ++ ["sizeof(" ++ elementC ++ ")"]
    .ok [.block (pops ++ links ++ [.pushFresh (.multiArray total args)])]

def monitor (function : String) : List Item :=
  [.block [.pop .object "__lock", .monitor function "__lock", .release "__lock"]]

end Emission

end BytecodeToC
