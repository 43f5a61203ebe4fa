import BytecodeToC.Emission.Body
import BytecodeToC.Fold
import BytecodeToC.LocalTable
import BytecodeToC.Options

/-!
A method lowered to a C function: its parameters, the declarations of its locals, one saved offset
for each try region, and the body.
-/

namespace BytecodeToC

structure C.Function where
  symbol : String
  result : ResultType
  isStatic : Bool
  maxStack : UInt16
  maxLocals : UInt16
  locals : List LocalVar
  regions : List Region
  body : List C.Item
deriving DecidableEq, Repr

namespace C.Function

def paramText (var : LocalVar) : Option String :=
  match var.param with
  | none => none
  | some param =>
    if param = LocalTable.receiverParam then none
    else some (var.type.cType ++ " " ++ LocalTable.paramName var.slot)

def paramsText (function : C.Function) : String :=
  let receiver :=
    if function.isStatic then [] else ["JAVA_OBJECT " ++ LocalTable.receiverParam]
  String.intercalate ", " ("THREAD_STATE" :: receiver ++ function.locals.filterMap paramText)

/-- A local starts as its parameter, of which an object local keeps a reference, or as zero. -/
def initialValue (var : LocalVar) : String :=
  match var.param, var.type with
  | some param, .object => "RETAIN(" ++ param ++ ")"
  | some param, _ => param
  | none, type => type.zeroValue

def declaration (var : LocalVar) : String :=
  var.type.cType ++ " " ++ var.name ++ " = " ++ initialValue var ++ ";"

def text (function : C.Function) : String :=
  ResultType.cType function.result ++ " " ++ function.symbol ++ "(" ++ function.paramsText ++ ") \x7b\n" ++
    C.line 1 ("DEFINE_METHOD_STACK(" ++ toString function.maxStack.toNat ++ ", " ++
      toString function.maxLocals.toNat ++ ");") ++
    String.join (function.locals.map fun var => C.line 1 (declaration var)) ++
    String.join (function.regions.map fun region =>
      C.line 1 ("int " ++ C.tryVariable region.seq ++ ";")) ++
    C.bodyText function.body ++ "\x7d\n"

def opening (function : C.Function) : String :=
  ResultType.cType function.result ++ " " ++ function.symbol ++ "(" ++ function.paramsText ++
    ") \x7b\n" ++
    C.line 1 ("DEFINE_METHOD_STACK(" ++ toString function.maxStack.toNat ++ ", " ++
      toString function.maxLocals.toNat ++ ");") ++
    String.join (function.locals.map fun var => C.line 1 (declaration var)) ++
    String.join (function.regions.map fun region =>
      C.line 1 ("int " ++ C.tryVariable region.seq ++ ";"))

theorem text_eq (function : C.Function) :
    function.text = function.opening ++ C.bodyText function.body ++ "\x7d\n" := rfl

theorem text_eq_lines (function : C.Function) :
    function.text =
      function.opening ++ String.join (function.body.flatMap C.Item.lines) ++ "\x7d\n" := by
  rw [text_eq, C.bodyText_eq_join_lines]

end C.Function

structure LoweredMethod where
  function : C.Function
  dependencies : NameSet
  virtualCalls : NameSet
  folds : Nat
deriving DecidableEq, Repr

namespace LoweredMethod

def symbol (lowered : LoweredMethod) : String := lowered.function.symbol

def code (lowered : LoweredMethod) : String := lowered.function.text

end LoweredMethod

namespace MethodScope

def firstRepeated? : List Label → List Label → Option Label
  | _, [] => none
  | seen, label :: rest =>
    if seen.contains label then some label else firstRepeated? (label :: seen) rest

/-- Refers to targets, up to the first one that is not defined. -/
def markTargets (defined : List Label) :
    List Label → MethodScope → Except Error Unit × MethodScope
  | [], scope => (.ok (), scope)
  | target :: rest, scope =>
    if defined.contains target then markTargets defined rest (scope.markReferenced target)
    else (.error (.unsupported (.missingLabel target)), scope)

def targets (scope : MethodScope) (list : Listing) : List Label :=
  list.instrs.flatMap Instr.jumpTargets ++
    scope.regions.flatMap fun region => [region.start, region.finish, region.handler]

def markLabels (scope : MethodScope) (list : Listing) : Except Error Unit × MethodScope :=
  match firstRepeated? [] list.labels with
  | some label => (.error (.unsupported (.labelDefinedTwice label)), scope)
  | none => markTargets list.labels (scope.targets list) scope

end MethodScope

namespace MethodHeader

/-- A lowered body and the symbols it dispatches on. The unit keeps what was recorded before a
failure. -/
def lowerBody (header : MethodHeader) (list : Listing) (locals : List LocalVar) (index : ClassIndex)
    (annotate : Bool) (unit : UnitState) :
    Except Error (List C.Item × NameSet) × UnitState :=
  let context : MethodContext :=
    { list, header, index, objectLocals := LocalTable.objectNames locals, labels := list.labels }
  let (result, state) := (Emission.body context annotate).run.run { scope := unit.scope }
  (result.map fun items => (items, state.virtualCalls),
    { unit with scope := state.scope, virtualCalls := unit.virtualCalls.union state.virtualCalls })

def lowerTyped (header : MethodHeader) (type : MethodType) (list : Listing) (index : ClassIndex)
    (options : Options) (unit : UnitState) : Except Error LoweredMethod × UnitState :=
  let (list, folds) := if options.reduce then list.fold else (list, 0)
  match unit.scope.markLabels list with
  | (.error error, scope) => (.error error, { unit with scope })
  | (.ok _, scope) =>
    let locals := LocalTable.ofType list header.isStatic type
    match header.lowerBody list locals index options.annotate { unit with scope } with
    | (.error error, unit) => (.error error, unit)
    | (.ok (body, virtualCalls), unit) =>
      let function : C.Function :=
        { symbol := Symbol.ofMethod header.owner header.name type
          result := type.result
          isStatic := header.isStatic
          maxStack := header.maxStack
          maxLocals := header.maxLocals
          locals
          regions := unit.scope.regions
          body }
      let dependencies := NameSet.ofList (list.instrs.flatMap Instr.dependencies)
      (.ok { function, dependencies, virtualCalls, folds }, unit)

/-- Lowers a method whose listing was assembled against the unit. Errors name the method. -/
def lower (header : MethodHeader) (list : Listing) (index : ClassIndex) (options : Options)
    (unit : UnitState) : Except Error LoweredMethod × UnitState :=
  match MethodType.parse header.descriptor with
  | .error error => (.error error, unit)
  | .ok type =>
    let (result, after) := header.lowerTyped type list index options unit
    (result.mapError (·.within (Symbol.ofMethod header.owner header.name type)), after)

end MethodHeader

end BytecodeToC
