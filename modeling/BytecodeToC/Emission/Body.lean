import BytecodeToC.Emission.Calls
import BytecodeToC.Emission.Jumps
import BytecodeToC.Emission.Objects
import BytecodeToC.Emission.Values

/-!
Lowering of a whole method body, instruction by instruction. An annotated body has a comment before
each instruction other than labels and try regions; nothing else differs.
-/

namespace BytecodeToC

namespace Emission

open C

def shuffle? : Opcode → Option Shuffle
  | .pop => some .pop
  | .pop2 => some .pop2
  | .dup => some .dup
  | .dupX1 => some .dupX1
  | .dupX2 => some .dupX2
  | .dup2 => some .dup2
  | .dup2X1 => some .dup2X1
  | .dup2X2 => some .dup2X2
  | .swap => some .swap
  | _ => none

def comparison? : Opcode → Option (StackType × Option String)
  | .lcmp => some (.long, none)
  | .fcmpl => some (.float, some "-1")
  | .fcmpg => some (.float, some "1")
  | .dcmpl => some (.double, some "-1")
  | .dcmpg => some (.double, some "1")
  | _ => none

def pushesConstant (op : Opcode) : Bool := op.isBetween .iconstM1 .sipush

def isReturn (op : Opcode) : Bool := op.isBetween .ireturn .voidReturn

def basic (context : MethodContext) (hasRegions : Bool) (op : Opcode) (immediate : Option Int32) :
    Except Error (List Item) :=
  if op = .nop then .ok []
  else if op = .aconstNull then .ok [.stmt (.pushFresh .null)]
  else if pushesConstant op then
    match Instr.immediateValue? op immediate with
    | some (text, type) => .ok [.stmt (.push type text)]
    | none => .error (.unsupported (.missingOperand op.mnemonic))
  else if let some kind := shuffle? op then .ok [.stmt (.shuffle kind)]
  else if let some operator := op.binary? then .ok (binary operator)
  else if let some operator := op.unary? then .ok (unary operator)
  else if let some (type, unordered) := comparison? op then .ok (comparison type unordered)
  else if let some element := op.elementType? then
    .ok (if op.isArrayLoad then arrayLoad element else arrayStore element)
  else if op = .arraylength then .ok arrayLength
  else if op = .newarray then newPrimitiveArray immediate
  else if isReturn op then .ok (methodReturn context hasRegions op.returnType?)
  else if op = .athrow then .ok [.stmt .throwTop]
  else if op = .monitorenter then .ok (monitor "monitorEnter")
  else if op = .monitorexit then .ok (monitor "monitorExit")
  else .error (.unsupported (.notLowered op))

def instr (context : MethodContext) (instruction : Instr) : Emit (List Item) := do
  match instruction with
  | .basic op immediate => basic context (← get).scope.hasRegions op immediate
  | .localVar op slot delta => localAccess context.list op slot delta
  | .namedLocal op slot name tag delta =>
    LocalName.check op slot name tag
    localAccess context.list op slot delta
  | .field access => fieldAccess context access
  | .invoke call =>
    let (items, symbol) ← invoke context call
    modify fun state => { state with virtualCalls := state.virtualCalls.insertAll symbol.toList }
    pure items
  | .jump op target condition => branch context.labels op target condition
  | .label id =>
    let state ← get
    let (items, openRegions) ← label state.scope state.openRegions id
    set { state with openRegions }
    pure items
  | .switch default keys targets => switch context.labels default keys targets
  | .tryRegion _ => pure []
  | .type op typeName => typeOperation op typeName
  | .multiArray descriptor dimensions => multiArray descriptor dimensions.toNat
  | .constant value poolOffset => constantLoad value poolOffset
  | .arith .. | .arrayLoad .. | .arrayLength .. | .dup .. => expression context.list instruction

def commentSafe : List Char → List Char
  | '*' :: '/' :: rest => '*' :: ' ' :: '/' :: commentSafe rest
  | c :: rest => c :: commentSafe rest
  | [] => []

def annotation (instruction : Instr) : List Item :=
  match instruction with
  | .label _ | .tryRegion _ => []
  | _ => [.stmt (.comment (String.ofList (commentSafe instruction.describe.toList)))]

def instrs (context : MethodContext) (annotate : Bool) : List Instr → Emit (List Item)
  | [] => pure []
  | instruction :: rest => do
    let items ← instr context instruction
    let others ← instrs context annotate rest
    pure ((if annotate then annotation instruction else []) ++ items ++ others)

def body (context : MethodContext) (annotate : Bool) : Emit (List Item) := do
  let items ← instrs context annotate context.list.instrs
  match (← get).openRegions with
  | [] => pure items
  | innermost :: _ => throw (.unbalanced (.stillOpen innermost))

end Emission

end BytecodeToC
