import BytecodeToC.Listing

/-!
The local variables of a lowered method: the receiver and the parameters in order, then every other
local that the method touches, by slot. One slot can hold values of several kinds at different
times, so a local is a slot together with a kind.
-/

namespace BytecodeToC

structure LocalVar where
  slot : Slot
  type : StackType
  name : String
  param : Option String
deriving DecidableEq, Repr

namespace LocalTable

def receiverParam : String := "__this"

def paramName (slot : Slot) : String := "__param_" ++ toString slot.toNat

/-- Locals of parameters from a slot on; a long or double takes two slots. -/
def params (list : Listing) : Slot → List FieldType → List LocalVar
  | _, [] => []
  | slot, param :: rest =>
    let type := param.stackType
    { slot, type, name := list.localName slot type, param := some (paramName slot) } ::
      params list (slot + param.width.toUInt16) rest

def receiver (list : Listing) : LocalVar :=
  { slot := 0, type := .object, name := list.localName 0 .object, param := some receiverParam }

def touched? : Instr → Option (Slot × StackType)
  | .localVar op slot _ | .namedLocal op slot _ _ _ => op.localType?.map fun type => (slot, type)
  | _ => none

def isBefore (left right : Slot × StackType) : Bool :=
  left.1 < right.1 || (left.1 = right.1 && left.2.rank < right.2.rank)

def insertSorted (entry : Slot × StackType) : List (Slot × StackType) → List (Slot × StackType)
  | [] => [entry]
  | head :: rest =>
    if entry = head then head :: rest
    else if isBefore entry head then entry :: head :: rest
    else head :: insertSorted entry rest

def others (list : Listing) (given : List LocalVar) : List LocalVar :=
  let fresh := (list.instrs.filterMap touched?).filter fun (slot, type) =>
    !given.any fun var => var.slot = slot && var.type = type
  (fresh.foldl (fun sorted entry => insertSorted entry sorted) []).map fun (slot, type) =>
    { slot, type, name := list.localName slot type, param := none }

def ofType (list : Listing) (isStatic : Bool) (type : MethodType) : List LocalVar :=
  let given :=
    if isStatic then params list 0 type.params else receiver list :: params list 1 type.params
  given ++ others list given

def collect (list : Listing) (header : MethodHeader) : Except Error (List LocalVar) :=
  (MethodType.parse header.descriptor).map (ofType list header.isStatic)

def objectNames (locals : List LocalVar) : List String :=
  (locals.filter (·.type = .object)).map (·.name)

end LocalTable

end BytecodeToC
