import BytecodeToC.Expression

/-!
Folding of operators into expressions. An operator whose operands stand right before it, each as an
expression of its own, is replaced together with them by one expression node. Of two operands at
most one may trap, so that the order of exceptions does not depend on the order in which C evaluates
operands.
-/

namespace BytecodeToC

namespace Listing

def operandBefore? (list : Listing) (pos : Nat) : Option NodeId :=
  if 1 ≤ pos then (list.assignableAt? (pos - 1)).bind fun _ => list.order[pos - 1]? else none

/-- The two operands just before a position, unless both may trap. -/
def operandsBefore? (list : Listing) (pos : Nat) : Option (NodeId × NodeId) := do
  if 2 ≤ pos then
    let first ← list.assignableAt? (pos - 2)
    let second ← list.assignableAt? (pos - 1)
    if first.effect = .mayTrap ∧ second.effect = .mayTrap then none
    else
      let left ← list.order[pos - 2]?
      let right ← list.order[pos - 1]?
      some (left, right)
  else none

def isObjectLoad : Instr → Bool
  | .localVar op _ _ | .namedLocal op _ _ _ _ => op = .aload
  | _ => false

/-- The load of an object local just before a position, which may be repeated. -/
def dupSource? (list : Listing) (pos : Nat) : Option NodeId := do
  if 1 ≤ pos then
    let instr ← list.at? (pos - 1)
    if isObjectLoad instr then list.order[pos - 1]? else none
  else none

def candidate? (list : Listing) (op : Opcode) (pos : Nat) : Option (Nat × Instr) :=
  if op.binary?.isSome then
    (list.operandsBefore? pos).map fun (lhs, rhs) => (2, .arith op lhs (some rhs))
  else if op.unary?.isSome then
    (list.operandBefore? pos).map fun operand => (1, .arith op operand none)
  else if op.isArrayLoad then
    (list.operandsBefore? pos).map fun (array, index) => (2, .arrayLoad op array index)
  else if op = .arraylength then
    (list.operandBefore? pos).map fun array => (1, .arrayLength array)
  else if op = .dup then
    (list.dupSource? pos).map fun source => (1, .dup source)
  else
    none

def isDup : Instr → Bool
  | .dup _ => true
  | _ => false

def foldAt? (list : Listing) (pos : Nat) : Option (Nat × Listing) :=
  match list.at? pos with
  | some (.basic op _) => do
    let (arity, node) ← list.candidate? op pos
    if isDup node || (list.render node).toBool then
      let (id, grown) := list.alloc node
      some (pos - arity, grown.replaceWindow (pos - arity) pos id)
    else none
  | _ => none

/-- One pass from left to right, as many steps long as the order was at the start. A fold leaves
as many positions to the right of it as there were. -/
def foldPass : Nat → Listing → Nat → Listing × Nat
  | 0, list, _ => (list, 0)
  | steps + 1, list, pos =>
    match list.foldAt? pos with
    | some (start, folded) =>
      let (result, folds) := foldPass steps folded (start + 1)
      (result, folds + 1)
    | none => foldPass steps list (pos + 1)

/-- Passes until nothing folds. Every pass but the last shortens the order. -/
def foldPasses : Nat → Listing → Listing × Nat
  | 0, list => (list, 0)
  | passes + 1, list =>
    match foldPass list.order.length list 0 with
    | (folded, 0) => (folded, 0)
    | (folded, folds) =>
      let (result, more) := foldPasses passes folded
      (result, folds + more)

def fold (list : Listing) : Listing × Nat := foldPasses (list.order.length + 1) list

end Listing

end BytecodeToC
