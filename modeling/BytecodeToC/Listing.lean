import BytecodeToC.Instr

/-!
The instructions of one method: an arena of nodes, the order in which they run, and the names given
to local variables. Changing the order never changes a node, so that an expression node can go on
referring to its operands after they have left the order.
-/

namespace BytecodeToC

structure Listing where
  nodes : Array Instr := #[]
  order : List NodeId := []
  names : List ((Slot × StackType) × String) := []
deriving DecidableEq, Repr, Inhabited

namespace Listing

def empty : Listing := {}

def node? (list : Listing) (id : NodeId) : Option Instr := list.nodes[id]?

def alloc (list : Listing) (instr : Instr) : NodeId × Listing :=
  (list.nodes.size, { list with nodes := list.nodes.push instr })

def push (list : Listing) (instr : Instr) : NodeId × Listing :=
  let (id, grown) := list.alloc instr
  (id, { grown with order := grown.order ++ [id] })

def pop (list : Listing) : Option NodeId × Listing :=
  (list.order.getLast?, { list with order := list.order.dropLast })

def at? (list : Listing) (pos : Nat) : Option Instr := list.order[pos]?.bind list.node?

def instrs (list : Listing) : List Instr := list.order.filterMap list.node?

def labelOf? : Instr → Option Label
  | .label id => some id
  | _ => none

def labels (list : Listing) : List Label := list.instrs.filterMap labelOf?

def replaceWindow (list : Listing) (first last : Nat) (id : NodeId) : Listing :=
  { list with order := list.order.take first ++ id :: list.order.drop (last + 1) }

def replaceWindow? (list : Listing) (first last : Nat) (id : NodeId) : Option Listing :=
  if first ≤ last ∧ last < list.order.length then some (list.replaceWindow first last id) else none

def boundName? (list : Listing) (slot : Slot) (type : StackType) : Option String :=
  list.names.lookup (slot, type)

def localName (list : Listing) (slot : Slot) (type : StackType) : String :=
  (list.boundName? slot type).getD (LocalName.generated slot type)

/-- Names a local. A local has one name, and no two locals share one. -/
def bindName (list : Listing) (slot : Slot) (type : StackType) (name : String) :
    Except Error Listing :=
  match list.boundName? slot type with
  | some bound =>
    if bound = name then .ok list else .error (.unsupported (.slotNamedTwice slot bound name))
  | none =>
    if list.names.any fun (_, bound) => bound = name then
      .error (.unsupported (.nameBoundTwice name))
    else
      .ok { list with names := list.names ++ [((slot, type), name)] }

@[simp] theorem alloc_id (list : Listing) (instr : Instr) :
    (list.alloc instr).1 = list.nodes.size := rfl

@[simp] theorem order_alloc (list : Listing) (instr : Instr) :
    (list.alloc instr).2.order = list.order := rfl

@[simp] theorem names_alloc (list : Listing) (instr : Instr) :
    (list.alloc instr).2.names = list.names := rfl

theorem node?_alloc_self (list : Listing) (instr : Instr) :
    (list.alloc instr).2.node? list.nodes.size = some instr := by
  simp [alloc, node?]

theorem node?_alloc_of_lt (list : Listing) (instr : Instr) {id : NodeId}
    (known : id < list.nodes.size) : (list.alloc instr).2.node? id = list.node? id := by
  simp [alloc, node?, Array.getElem?_push, Nat.ne_of_lt known]

@[simp] theorem order_push (list : Listing) (instr : Instr) :
    (list.push instr).2.order = list.order ++ [list.nodes.size] := rfl

@[simp] theorem order_pop (list : Listing) : list.pop.2.order = list.order.dropLast := rfl

@[simp] theorem nodes_replaceWindow (list : Listing) (first last : Nat) (id : NodeId) :
    (list.replaceWindow first last id).nodes = list.nodes := rfl

@[simp] theorem names_replaceWindow (list : Listing) (first last : Nat) (id : NodeId) :
    (list.replaceWindow first last id).names = list.names := rfl

end Listing

end BytecodeToC
