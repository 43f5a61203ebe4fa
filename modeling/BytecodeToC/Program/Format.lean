import BytecodeToC.Json.Reader
import BytecodeToC.Program

/-!
The JSON form of programs.

A record type is written as an object with its fields by name, or as an array with its fields in
order. Fields that are not known are skipped without a look at their values; a known field must not
come twice. Fields with a default may be left out, and only optional fields may be null.

An instruction record carries its kind under `kind`, a constant its type and value under `type` and
`value`. In an array they stand in front, and there a constant's type may be a number. Unlike skipped
fields, everything inside an instruction record must have a value, and its nesting is bounded.
-/

namespace BytecodeToC

namespace Json

/-! Reading records -/

def valuesAt (key : String) (members : List (Option String × Json)) : List Json :=
  members.filterMap fun (name, value) => if name = some key then some value else none

def onlyValueAt? (key : String) (members : List (Option String × Json)) : Option (Option Json) :=
  match valuesAt key members with
  | [] => some none
  | [value] => some (some value)
  | _ => none

def fields? (names : List String) : Json → Option (List (Option Json))
  | .object members =>
    if members.all fun (key, _) => key.isSome then names.mapM (onlyValueAt? · members) else none
  | .array items =>
    if items.length ≤ names.length then
      some (items.map some ++ List.replicate (names.length - items.length) none)
    else none
  | _ => none

def tagged? (tag : String) : Json → Option (String × Json)
  | .object members =>
    match valuesAt tag members with
    | [.string (some kind)] => some (kind, .object (members.filter fun (key, _) => key ≠ some tag))
    | _ => none
  | .array (.string (some kind) :: rest) => some (kind, .array rest)
  | _ => none

def required {α : Type} (decode : Json → Option α) (field : Option Json) : Option α :=
  field.bind decode

def optional {α : Type} (decode : Json → Option α) : Option Json → Option (Option α)
  | none | some .null => some none
  | some value => (decode value).map some

def withDefault {α : Type} (default : α) (decode : Json → Option α) : Option Json → Option α
  | none => some default
  | some value => decode value

def nullable {α : Type} (decode : Json → Option α) (value : Json) : Option (Option α) :=
  optional decode (some value)

def list {α : Type} (decode : Json → Option α) : Json → Option (List α)
  | .array items => items.mapM decode
  | _ => none

/-! Reading scalars -/

def bool? : Json → Option Bool
  | .bool value => some value
  | _ => none

def string? : Json → Option String
  | .string text => text
  | _ => none

def char? (value : Json) : Option Char :=
  match (string? value).map String.toList with
  | some [c] => some c
  | _ => none

def integer? (least greatest : Int) : Json → Option Int
  | .number (some (.integer value)) =>
    if least ≤ value ∧ value ≤ greatest then some value else none
  | _ => none

def uint8? (value : Json) : Option UInt8 := (integer? 0 0xff value).map (·.toNat.toUInt8)

def uint16? (value : Json) : Option UInt16 := (integer? 0 0xffff value).map (·.toNat.toUInt16)

def uint32? (value : Json) : Option UInt32 := (integer? 0 0xffffffff value).map (·.toNat.toUInt32)

def int32? (value : Json) : Option Int32 :=
  (integer? Int32.minValue.toInt Int32.maxValue.toInt value).map Int32.ofInt

def int64? (value : Json) : Option Int64 :=
  (integer? Int64.minValue.toInt Int64.maxValue.toInt value).map Int64.ofInt

/-- Bits of a single. An integer is rounded once, any other number by way of a double. -/
def single? : Json → Option UInt32
  | .number (some (.integer value)) =>
    some (if 0 ≤ value then value.toNat.toUInt64.toFloat32 else (Int64.ofInt value).toFloat32).toBits
  | .number (some (.single bits)) => some bits
  | .number (some (.double bits)) => some (Float.ofBits bits).toFloat32.toBits
  | _ => none

def double? : Json → Option UInt64
  | .number (some (.integer value)) =>
    some (if 0 ≤ value then value.toNat.toUInt64.toFloat else (Int64.ofInt value).toFloat).toBits
  | .number (some (.single bits)) => some (Float32.ofBits bits).toFloat.toBits
  | .number (some (.double bits)) => some bits
  | _ => none

end Json

namespace Constant

def typeNames : List String :=
  ["int", "float", "long", "double", "string", "class", "method_handle"]

/-- A type as a member of an object: its name, or an object with the name as its only key and
nothing under it. -/
def typeOfMember? : Json → Option String
  | .string text => text
  | .object [(key, .null)] => key
  | .object [(key, .object [])] => key
  | _ => none

def typeOfItem? : Json → Option String
  | .string text => text
  | .number (some (.integer value)) => if 0 ≤ value then typeNames[value.toNat]? else none
  | _ => none

open Json in
def ofTyped? (typeName : String) (value : Json) : Option Constant :=
  match typeName with
  | "int" => (int32? value).map .int
  | "float" => (single? value).map .float
  | "long" => (int64? value).map .long
  | "double" => (double? value).map .double
  | "string" => (string? value).map .string
  | "class" => (string? value).map .type
  | "method_handle" => (string? value).map .methodHandle
  | _ => none

open Json in
def ofJson? : Json → Option Constant
  | .array [tag, value] => (typeOfItem? tag).bind (ofTyped? · value)
  | .object members => do
    match ← fields? ["type", "value"] (.object members) with
    | [some tag, some value] => (typeOfMember? tag).bind (ofTyped? · value)
    | _ => none
  | _ => none

open Json in
def toJson (constant : Constant) : Json :=
  let tagged (type : String) (value : Json) : Json :=
    ofMembers [("type", ofString type), ("value", value)]
  match constant with
  | .int value => tagged "int" (ofInt value.toInt)
  | .float bits => tagged "float" (.number (some (.single bits)))
  | .long value => tagged "long" (ofInt value.toInt)
  | .double bits => tagged "double" (.number (some (.double bits)))
  | .string text => tagged "string" (ofString text)
  | .type name => tagged "class" (ofString name)
  | .methodHandle handle => tagged "method_handle" (ofString handle)

end Constant

namespace Record

/-- Levels an instruction record may have: a text has at most 127, six of them around a record. -/
def heightLimit : Nat := 127 - 6

open Json in
def ofFields? (kind : String) (record : Json) : Option Record := do
  match kind with
  | "insn" =>
    match ← fields? ["op", "operand"] record with
    | [op, operand] => some (.simple (← required string? op) (← optional int32? operand))
    | _ => none
  | "var" =>
    match ← fields? ["op", "slot", "name", "type_tag"] record with
    | [op, slot, name, tag] =>
      some (.localVar (← required string? op) (← optional uint16? slot) (← optional string? name)
        (← optional char? tag))
    | _ => none
  | "iinc" =>
    match ← fields? ["slot", "delta", "name"] record with
    | [slot, delta, name] =>
      some (.increment (← required uint16? slot) (← required int32? delta)
        (← optional string? name))
    | _ => none
  | "field" =>
    match ← fields? ["op", "owner", "name", "descriptor", "use_this"] record with
    | [op, owner, name, descriptor, useThis] =>
      some (.field (← required string? op) (← required string? owner) (← required string? name)
        (← required string? descriptor) (← withDefault false bool? useThis))
    | _ => none
  | "invoke" =>
    match ← fields? ["op", "owner", "name", "descriptor", "literal_args", "receiver", "self_call",
        "discard_result"] record with
    | [op, owner, name, descriptor, literalArgs, receiver, selfCall, discardResult] =>
      some (.invoke (← required string? op) (← required string? owner) (← required string? name)
        (← required string? descriptor) (← withDefault [] (list (nullable string?)) literalArgs)
        (← optional string? receiver) (← withDefault false bool? selfCall)
        (← withDefault false bool? discardResult))
    | _ => none
  | "jump" =>
    match ← fields? ["op", "target", "condition"] record with
    | [op, target, condition] =>
      some (.jump (← required string? op) (← required uint32? target)
        (← optional string? condition))
    | _ => none
  | "label" =>
    match ← fields? ["id"] record with
    | [id] => some (.label (← required uint32? id))
    | _ => none
  | "switch" =>
    match ← fields? ["default", "keys", "low", "targets"] record with
    | [default, keys, low, targets] =>
      some (.switch (← optional uint32? default) (← withDefault [] (list int32?) keys)
        (← optional int32? low) (← required (list uint32?) targets))
    | _ => none
  | "type" =>
    match ← fields? ["op", "type_name"] record with
    | [op, typeName] => some (.type (← required string? op) (← required string? typeName))
    | _ => none
  | "new_array" =>
    match ← fields? ["element"] record with
    | [element] => some (.newArray (← required string? element))
    | _ => none
  | "multi_array" =>
    match ← fields? ["descriptor", "dimensions"] record with
    | [descriptor, dimensions] =>
      some (.multiArray (← required string? descriptor) (← required uint8? dimensions))
    | _ => none
  | "ldc" =>
    match ← fields? ["constant"] record with
    | [value] => some (.constant (← required Constant.ofJson? value))
    | _ => none
  | _ => none

open Json in
def ofJson? (json : Json) : Option Record :=
  if json.isMeaningful && json.height ≤ heightLimit then do
    let (kind, record) ← tagged? "kind" json
    ofFields? kind record
  else none

open Json in
def toJson (record : Record) : Json :=
  let tagged (kind : String) (members : List (String × Json)) : Json :=
    ofMembers (("kind", ofString kind) :: members)
  match record with
  | simple op operand =>
    tagged "insn" [("op", ofString op), ("operand", ofOption (ofInt ·.toInt) operand)]
  | localVar op slot name tag =>
    tagged "var"
      [("op", ofString op), ("slot", ofOption (ofNat ·.toNat) slot),
       ("name", ofOption ofString name),
       ("type_tag", ofOption (fun c => ofString (String.singleton c)) tag)]
  | increment slot delta name =>
    tagged "iinc"
      [("slot", ofNat slot.toNat), ("delta", ofInt delta.toInt), ("name", ofOption ofString name)]
  | field op owner name descriptor useThis =>
    tagged "field"
      [("op", ofString op), ("owner", ofString owner), ("name", ofString name),
       ("descriptor", ofString descriptor), ("use_this", .bool useThis)]
  | invoke op owner name descriptor literalArgs receiver selfCall discardResult =>
    tagged "invoke"
      [("op", ofString op), ("owner", ofString owner), ("name", ofString name),
       ("descriptor", ofString descriptor),
       ("literal_args", Json.ofList (ofOption ofString) literalArgs),
       ("receiver", ofOption ofString receiver), ("self_call", .bool selfCall),
       ("discard_result", .bool discardResult)]
  | jump op target condition =>
    tagged "jump"
      [("op", ofString op), ("target", ofNat target.toNat),
       ("condition", ofOption ofString condition)]
  | label id => tagged "label" [("id", ofNat id.toNat)]
  | switch default keys low targets =>
    tagged "switch"
      [("default", ofOption (ofNat ·.toNat) default), ("keys", Json.ofList (ofInt ·.toInt) keys),
       ("low", ofOption (ofInt ·.toInt) low), ("targets", Json.ofList (ofNat ·.toNat) targets)]
  | type op typeName => tagged "type" [("op", ofString op), ("type_name", ofString typeName)]
  | newArray element => tagged "new_array" [("element", ofString element)]
  | multiArray descriptor dimensions =>
    tagged "multi_array"
      [("descriptor", ofString descriptor), ("dimensions", ofNat dimensions.toNat)]
  | constant value => tagged "ldc" [("constant", value.toJson)]

end Record

open Json in
def TryEntry.ofJson? (json : Json) : Option TryEntry := do
  match ← fields? ["start", "end", "handler", "catch_type"] json with
  | [start, finish, handler, catchType] =>
    some
      { start := ← required uint32? start
        finish := ← required uint32? finish
        handler := ← required uint32? handler
        catchType := ← optional string? catchType }
  | _ => none

open Json in
def TryEntry.toJson (entry : TryEntry) : Json :=
  ofMembers
    [("start", ofNat entry.start.toNat), ("end", ofNat entry.finish.toNat),
     ("handler", ofNat entry.handler.toNat), ("catch_type", ofOption ofString entry.catchType)]

open Json in
def FieldDecl.ofJson? (json : Json) : Option FieldDecl := do
  match ← fields? ["name", "descriptor", "is_static"] json with
  | [name, descriptor, isStatic] =>
    some
      { name := ← required string? name
        descriptor := ← required string? descriptor
        isStatic := ← withDefault false bool? isStatic }
  | _ => none

open Json in
def FieldDecl.toJson (field : FieldDecl) : Json :=
  ofMembers
    [("name", ofString field.name), ("descriptor", ofString field.descriptor),
     ("is_static", .bool field.isStatic)]

open Json in
def MethodDecl.ofJson? (json : Json) : Option MethodDecl := do
  match ← fields? ["name", "descriptor", "is_static", "max_stack", "max_locals", "code",
      "try_catch"] json with
  | [name, descriptor, isStatic, maxStack, maxLocals, code, tryCatch] =>
    some
      { name := ← required string? name
        descriptor := ← required string? descriptor
        isStatic := ← withDefault false bool? isStatic
        maxStack := ← withDefault 0 uint16? maxStack
        maxLocals := ← withDefault 0 uint16? maxLocals
        code := ← withDefault [] (list Record.ofJson?) code
        tryCatch := ← withDefault [] (list TryEntry.ofJson?) tryCatch }
  | _ => none

open Json in
def MethodDecl.toJson (method : MethodDecl) : Json :=
  ofMembers
    [("name", ofString method.name), ("descriptor", ofString method.descriptor),
     ("is_static", .bool method.isStatic), ("max_stack", ofNat method.maxStack.toNat),
     ("max_locals", ofNat method.maxLocals.toNat), ("code", Json.ofList Record.toJson method.code),
     ("try_catch", Json.ofList TryEntry.toJson method.tryCatch)]

open Json in
def ClassDecl.ofJson? (json : Json) : Option ClassDecl := do
  match ← fields? ["name", "super_name", "fields", "methods"] json with
  | [name, superName, fields, methods] =>
    some
      { name := ← required string? name
        superName := ← optional string? superName
        fields := ← withDefault [] (list FieldDecl.ofJson?) fields
        methods := ← withDefault [] (list MethodDecl.ofJson?) methods }
  | _ => none

open Json in
def ClassDecl.toJson (decl : ClassDecl) : Json :=
  ofMembers
    [("name", ofString decl.name), ("super_name", ofOption ofString decl.superName),
     ("fields", Json.ofList FieldDecl.toJson decl.fields),
     ("methods", Json.ofList MethodDecl.toJson decl.methods)]

namespace Program

open Json in
def ofJson? (json : Json) : Option Program := do
  match ← fields? ["classes"] json with
  | [classes] => some { classes := ← required (list ClassDecl.ofJson?) classes }
  | _ => none

open Json in
def toJson (program : Program) : Json :=
  ofMembers [("classes", Json.ofList ClassDecl.toJson program.classes)]

def parse (text : String) : Except Error Program :=
  match (Json.parse? text).bind ofJson? with
  | some program => .ok program
  | none => .error (.input "the text is not a decoded program")

def text (program : Program) : String := program.toJson.compact

end Program

end BytecodeToC
