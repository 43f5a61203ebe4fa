import BytecodeToC.Emission.Context

/-!
Lowering of method calls. Arguments that are not given as text are popped from last to first, then
the receiver; what was popped and is an object is released after the call.
-/

namespace BytecodeToC

namespace Emission

open C

inductive Argument where
  | literal (text : String)
  | popped (type : StackType) (name : String)
deriving DecidableEq, Repr

namespace Argument

def text : Argument → String
  | literal text => text
  | popped _ name => name

def pop : Argument → List Stmt
  | literal _ => []
  | popped type name => [.pop type name]

def release : Argument → List Stmt
  | popped .object name => [.release name]
  | _ => []

end Argument

def arguments (first : Nat) : List FieldType → List (Option String) → List Argument
  | [], _ => []
  | param :: params, literals =>
    let argument : Argument := match literals.head? with
      | some (some text) => .literal text
      | _ => .popped param.stackType ("__arg" ++ toString first)
    argument :: arguments (first + 1) params literals.tail

def receiver (context : MethodContext) (call : Call) : Except Error (Option Argument) :=
  match call.dispatch, call.receiver with
  | .static, _ => .ok none
  | _, .stack => .ok (some (.popped .object "__receiver"))
  | _, .literal text => .ok (some (.literal text))
  | _, .currentObject => (context.currentObject "self call").map (some ∘ .literal)

/-- A copy of an array, which arrives owned. -/
def isArrayClone (call : Call) : Bool := TypeName.isArray call.owner && call.name = "clone"

def virtualSymbol? (call : Call) (type : MethodType) : Option String :=
  match call.dispatch with
  | .virtual | .interface =>
    if isArrayClone call then none else some (Symbol.ofMethod call.owner call.name type)
  | _ => none

def callTarget (index : ClassIndex) (call : Call) (type : MethodType) : String :=
  match call.dispatch with
  | .static =>
    let owner := index.staticMethodOwner call.owner call.name call.descriptor
    Symbol.ofMethod owner call.name type
  | .special => Symbol.ofMethod call.owner call.name type
  | .virtual | .interface => "virtual_" ++ Symbol.ofMethod call.owner call.name type

def performCall (index : ClassIndex) (call : Call) (type : MethodType) (receiver : Option Argument)
    (args : List Argument) : Stmt :=
  if isArrayClone call then
    let copy := Fresh.clone ((receiver.map Argument.text).getD "__receiver")
    if call.discardResult then .releaseFresh copy else .pushFresh copy
  else
    let application : C.Call :=
      { function := callTarget index call type
        args := threadState :: (receiver.toList ++ args).map Argument.text }
    match type.result with
    | some result =>
      if call.discardResult then .call application else .pushCall result.stackType application
    | none => .call application

def nullCheck : Option Argument → List Stmt
  | some (.popped _ name) => [.checkNull name]
  | _ => []

def invokeItems (index : ClassIndex) (call : Call) (type : MethodType) (receiver : Option Argument)
    (args : List Argument) : List Item :=
  let operands := args.reverse ++ receiver.toList
  let pops := operands.flatMap Argument.pop
  let body := nullCheck receiver ++ [performCall index call type receiver args] ++
    operands.flatMap Argument.release
  if pops = [] then body.map .stmt else [.block (pops ++ body)]

def invoke (context : MethodContext) (call : Call) : Except Error (List Item × Option String) := do
  let type ← MethodType.parse call.descriptor
  if call.literalArgs ≠ [] ∧ call.literalArgs.length ≠ type.params.length then
    .error (.unsupported (.literalArguments (call.owner ++ "." ++ call.name ++ call.descriptor)
      call.literalArgs.length type.params.length))
  else if call.dispatch = .static ∧ call.receiver ≠ .stack then
    .error (.unsupported (.staticReceiver call.owner call.name))
  else
    let receiver ← receiver context call
    let args := arguments 0 type.params call.literalArgs
    .ok (invokeItems context.index call type receiver args, virtualSymbol? call type)

end Emission

end BytecodeToC
