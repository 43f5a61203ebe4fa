import BytecodeToC.Fold
import BytecodeToC.Proofs.Result

/-!
Expression trees. A node of a listing stands for the tree that its references unfold to, and its
value is the value of that tree, so that nothing else about the arena matters to a fold.
-/

namespace BytecodeToC

def Instr.operands : Instr → List NodeId
  | .arith _ lhs rhs => lhs :: rhs.toList
  | .arrayLoad _ array index => [array, index]
  | .arrayLength array => [array]
  | .dup source => [source]
  | _ => []

inductive UnaryNode where
  | arith (op : Opcode)
  | arrayLength
  | dup
deriving DecidableEq, Repr

namespace UnaryNode

def instr : UnaryNode → NodeId → Instr
  | arith op, operand => .arith op operand none
  | arrayLength, array => .arrayLength array
  | dup, source => .dup source

def value? : UnaryNode → Value → Option Value
  | arith op, operand => op.unary?.bind fun unary =>
    if operand.type = unary.operandType then
      some { text := unary.text operand.text, type := unary.resultType, effect := operand.effect }
    else none
  | arrayLength, array =>
    if array.type = .object then
      some { text := "CHECKED_ARRAY_LENGTH(" ++ array.text ++ ")", type := .int, effect := .mayTrap }
    else none
  | dup, source => some source

def ofOpcode? (op : Opcode) : Option UnaryNode :=
  if op.unary?.isSome then some (.arith op)
  else if op = .arraylength then some .arrayLength
  else if op = .dup then some .dup
  else none

def opcode : UnaryNode → Opcode
  | arith op => op
  | arrayLength => .arraylength
  | dup => .dup

@[simp] theorem operands_instr (node : UnaryNode) (operand : NodeId) :
    (node.instr operand).operands = [operand] := by
  cases node <;> rfl

theorem instr_inj {node other : UnaryNode} {operand otherOperand : NodeId}
    (same : node.instr operand = other.instr otherOperand) :
    node = other ∧ operand = otherOperand := by
  cases node <;> cases other <;> simp_all [instr]

theorem of_value?_arith {op : Opcode} {operand result : Value}
    (fits : (arith op).value? operand = some result) :
    ∃ unary, op.unary? = some unary ∧
      result =
        { text := unary.text operand.text
          type := unary.resultType
          effect := operand.effect } := by
  simp only [value?, Option.bind_eq_some_iff] at fits
  obtain ⟨unary, found, made⟩ := fits
  split at made
  next => exact ⟨unary, found, (Option.some.inj made).symm⟩
  next => simp at made

theorem of_value?_arrayLength {array result : Value}
    (fits : arrayLength.value? array = some result) :
    result =
      { text := "CHECKED_ARRAY_LENGTH(" ++ array.text ++ ")", type := .int, effect := .mayTrap } := by
  simp only [value?] at fits
  split at fits
  next => exact (Option.some.inj fits).symm
  next => simp at fits

end UnaryNode

inductive BinaryNode where
  | arith (op : Opcode)
  | arrayLoad (op : Opcode)
deriving DecidableEq, Repr

namespace BinaryNode

def instr : BinaryNode → NodeId → NodeId → Instr
  | arith op, left, right => .arith op left (some right)
  | arrayLoad op, array, index => .arrayLoad op array index

def value? : BinaryNode → Value → Value → Option Value
  | arith op, left, right => op.binary?.bind fun binary =>
    if left.type = binary.operandTypes.1 ∧ right.type = binary.operandTypes.2 then
      some
        { text := binary.text left.text right.text
          type := binary.resultType
          effect := if binary.dividesIntegers then .mayTrap else left.effect.join right.effect }
    else none
  | arrayLoad op, array, index => op.elementType?.bind fun element =>
    if array.type = .object ∧ index.type = .int then
      some
        { text := "ELEMENT_ACCESS_" ++ element.suffix ++ "(" ++ array.text ++ ", " ++ index.text ++ ")"
          type := element.stackType
          effect := .mayTrap }
    else none

def ofOpcode? (op : Opcode) : Option BinaryNode :=
  if op.binary?.isSome then some (.arith op)
  else if op.isArrayLoad then some (.arrayLoad op)
  else none

def opcode : BinaryNode → Opcode
  | arith op | arrayLoad op => op

@[simp] theorem operands_instr (node : BinaryNode) (left right : NodeId) :
    (node.instr left right).operands = [left, right] := by
  cases node <;> rfl

theorem instr_inj {node other : BinaryNode} {left right otherLeft otherRight : NodeId}
    (same : node.instr left right = other.instr otherLeft otherRight) :
    node = other ∧ left = otherLeft ∧ right = otherRight := by
  cases node <;> cases other <;> simp_all [instr]

theorem of_value?_arith {op : Opcode} {left right result : Value}
    (fits : (arith op).value? left right = some result) :
    ∃ binary, op.binary? = some binary ∧
      result =
        { text := binary.text left.text right.text
          type := binary.resultType
          effect := if binary.dividesIntegers then .mayTrap else left.effect.join right.effect } := by
  simp only [value?, Option.bind_eq_some_iff] at fits
  obtain ⟨binary, found, made⟩ := fits
  split at made
  next => exact ⟨binary, found, (Option.some.inj made).symm⟩
  next => simp at made

theorem of_value?_arrayLoad {op : Opcode} {array index result : Value}
    (fits : (arrayLoad op).value? array index = some result) :
    ∃ element, op.elementType? = some element ∧
      result =
        { text := "ELEMENT_ACCESS_" ++ element.suffix ++ "(" ++ array.text ++ ", " ++ index.text ++ ")"
          type := element.stackType
          effect := .mayTrap } := by
  simp only [value?, Option.bind_eq_some_iff] at fits
  obtain ⟨element, found, made⟩ := fits
  split at made
  next => exact ⟨element, found, (Option.some.inj made).symm⟩
  next => simp at made

end BinaryNode

def Opcode.isOperator (op : Opcode) : Bool :=
  (BinaryNode.ofOpcode? op).isSome || (UnaryNode.ofOpcode? op).isSome

def Instr.plain : Instr → Instr
  | .basic op immediate => .basic op (if op.isOperator then none else immediate)
  | instr => instr

/-- What a node stands for. A leaf is any instruction that refers to no node. -/
inductive ExprTree where
  | leaf (instr : Instr)
  | unary (node : UnaryNode) (operand : ExprTree)
  | binary (node : BinaryNode) (left right : ExprTree)
deriving DecidableEq, Repr

namespace ExprTree

def depth : ExprTree → Nat
  | leaf _ => 1
  | unary _ operand => operand.depth + 1
  | binary _ left right => max left.depth right.depth + 1

def code : ExprTree → List Instr
  | leaf instr => [instr.plain]
  | unary node operand => operand.code ++ [.basic node.opcode none]
  | binary node left right => left.code ++ right.code ++ [.basic node.opcode none]

/-- The value of a tree as an operand. A `dup` pushes two values and is no operand. -/
def operand? (list : Listing) : ExprTree → Option Value
  | leaf instr => list.leafValue? instr
  | unary .dup _ => none
  | unary node operand => (operand.operand? list).bind node.value?
  | binary node left right =>
    (left.operand? list).bind fun leftValue => (right.operand? list).bind (node.value? leftValue)

def pushed? (list : Listing) : ExprTree → Option Value
  | unary .dup source => source.operand? list
  | tree => tree.operand? list

theorem pushed?_unary (list : Listing) (node : UnaryNode) (operand : ExprTree) :
    (unary node operand).pushed? list = (operand.operand? list).bind node.value? := by
  cases node with
  | dup => cases given : operand.operand? list <;> simp [pushed?, given, UnaryNode.value?]
  | arith op => rfl
  | arrayLength => rfl

theorem pushed?_of_operand? {list : Listing} {tree : ExprTree} {value : Value}
    (given : tree.operand? list = some value) : tree.pushed? list = some value := by
  unfold pushed?
  split
  · simp [operand?] at given
  · exact given

end ExprTree

namespace Listing

open Result

inductive Denotes (list : Listing) : NodeId → ExprTree → Prop
  | leaf {id instr} (found : list.node? id = some instr) (elementary : instr.operands = []) :
      Denotes list id (.leaf instr)
  | unary {id node operand tree} (found : list.node? id = some (node.instr operand))
      (inner : Denotes list operand tree) : Denotes list id (.unary node tree)
  | binary {id node left right leftTree rightTree}
      (found : list.node? id = some (node.instr left right))
      (first : Denotes list left leftTree) (second : Denotes list right rightTree) :
      Denotes list id (.binary node leftTree rightTree)

def Descending (list : Listing) : Prop :=
  ∀ (id : Nat) (instr : Instr), list.node? id = some instr →
    ∀ operand : Nat, operand ∈ instr.operands → operand < id

theorem lt_size_of_node? {list : Listing} {id : Nat} {instr : Instr}
    (found : list.node? id = some instr) : id < list.nodes.size := by
  unfold node? at found
  exact (Array.getElem?_eq_some_iff.mp found).1

theorem Denotes.found {list : Listing} {id : NodeId} {tree : ExprTree}
    (denotes : list.Denotes id tree) : ∃ instr, list.node? id = some instr := by
  cases denotes with
  | leaf found _ => exact ⟨_, found⟩
  | unary found _ => exact ⟨_, found⟩
  | binary found _ _ => exact ⟨_, found⟩

theorem Denotes.unique {list : Listing} {id : NodeId} {tree other : ExprTree}
    (denotes : list.Denotes id tree) (again : list.Denotes id other) : tree = other := by
  induction denotes generalizing other with
  | leaf found elementary =>
      cases again with
      | leaf known _ =>
          obtain rfl := Option.some.inj (found.symm.trans known)
          rfl
      | unary known _ => simp [Option.some.inj (found.symm.trans known)] at elementary
      | binary known _ _ => simp [Option.some.inj (found.symm.trans known)] at elementary
  | @unary id node operand tree found inner ih =>
      cases again with
      | leaf known elementary => simp [Option.some.inj (known.symm.trans found)] at elementary
      | unary known otherInner =>
          obtain ⟨rfl, rfl⟩ := UnaryNode.instr_inj (Option.some.inj (found.symm.trans known))
          rw [ih otherInner]
      | binary known _ _ =>
          have clash := congrArg Instr.operands (Option.some.inj (found.symm.trans known))
          simp at clash
  | @binary id node left right leftTree rightTree found first second ihFirst ihSecond =>
      cases again with
      | leaf known elementary => simp [Option.some.inj (known.symm.trans found)] at elementary
      | unary known _ =>
          have clash := congrArg Instr.operands (Option.some.inj (found.symm.trans known))
          simp at clash
      | binary known otherFirst otherSecond =>
          obtain ⟨rfl, rfl, rfl⟩ := BinaryNode.instr_inj (Option.some.inj (found.symm.trans known))
          rw [ihFirst otherFirst, ihSecond otherSecond]

theorem Denotes.lt_size {list : Listing} {id : Nat} {tree : ExprTree}
    (denotes : list.Denotes id tree) : id < list.nodes.size := by
  obtain ⟨instr, found⟩ := denotes.found
  exact lt_size_of_node? found

theorem Denotes.depth_le {list : Listing} (descending : list.Descending) {id : NodeId}
    {tree : ExprTree} (denotes : list.Denotes id tree) : tree.depth ≤ id + 1 := by
  induction denotes with
  | leaf found elementary => simp [ExprTree.depth]
  | @unary id node operand tree found inner ih =>
      have below := descending id _ found operand (by simp)
      simp only [ExprTree.depth]
      omega
  | @binary id node left right leftTree rightTree found first second ihFirst ihSecond =>
      have belowFirst := descending id _ found left (by simp)
      have belowSecond := descending id _ found right (by simp)
      simp only [ExprTree.depth]
      omega

@[simp] theorem toOption_expectType (role : String) (op : Opcode) (value : Value)
    (expected : StackType) :
    (expectType role op value expected).toOption =
      if value.type = expected then some () else none := by
  unfold expectType
  split <;> rfl

theorem valueOfNode_unary (list : Listing) (operand : String → NodeId → Except Error Value)
    (node : UnaryNode) (id : NodeId) (value : Option Value)
    (known : ∀ role, (operand role id).toOption = value) :
    (list.valueOfNode operand (node.instr id)).toOption = value.bind node.value? := by
  cases node with
  | arith op =>
      simp only [UnaryNode.instr, valueOfNode, toOption_bind, known]
      apply Option.bind_congr
      intro given _
      cases found : op.unary? with
      | none => simp [UnaryNode.value?, found]
      | some unary =>
          by_cases fits : given.type = unary.operandType <;>
            simp [UnaryNode.value?, found, fits]
  | arrayLength =>
      simp only [UnaryNode.instr, valueOfNode, toOption_bind, known]
      apply Option.bind_congr
      intro array _
      by_cases fits : array.type = .object <;> simp [UnaryNode.value?, fits]
  | dup =>
      simp only [UnaryNode.instr, valueOfNode, known]
      cases value <;> rfl

theorem valueOfNode_binary (list : Listing) (operand : String → NodeId → Except Error Value)
    (node : BinaryNode) (left right : NodeId) (leftValue rightValue : Option Value)
    (knownLeft : ∀ role, (operand role left).toOption = leftValue)
    (knownRight : ∀ role, (operand role right).toOption = rightValue) :
    (list.valueOfNode operand (node.instr left right)).toOption =
      leftValue.bind fun first => rightValue.bind (node.value? first) := by
  cases node with
  | arith op =>
      simp only [BinaryNode.instr, valueOfNode, toOption_bind, knownLeft]
      apply Option.bind_congr
      intro first _
      cases found : op.binary? with
      | none => cases rightValue <;> simp [BinaryNode.value?, found]
      | some binary =>
          simp only [toOption_bind, knownRight]
          apply Option.bind_congr
          intro second _
          by_cases fitsLeft : first.type = binary.operandTypes.1 <;>
            by_cases fitsRight : second.type = binary.operandTypes.2 <;>
              simp [BinaryNode.value?, found, fitsLeft, fitsRight]
  | arrayLoad op =>
      simp only [BinaryNode.instr, valueOfNode]
      cases found : op.elementType? with
      | none => cases leftValue <;> cases rightValue <;> simp [BinaryNode.value?, found]
      | some element =>
          simp only [toOption_bind, knownLeft, knownRight]
          apply Option.bind_congr
          intro array _
          apply Option.bind_congr
          intro index _
          by_cases fitsArray : array.type = .object <;> by_cases fitsIndex : index.type = .int <;>
            simp [BinaryNode.value?, found, fitsArray, fitsIndex]

theorem operandValue?_elementary (list : Listing) (render : Instr → Except Error Value)
    {instr : Instr} (elementary : instr.operands = []) :
    list.operandValue? render instr = list.leafValue? instr := by
  cases instr <;> first | rfl | simp [Instr.operands] at elementary

theorem toOption_operandValue {list : Listing} (render : Instr → Except Error Value) (role : String)
    {id : NodeId} {instr : Instr} (found : list.node? id = some instr) :
    (list.operandValue render role id).toOption = list.operandValue? render instr := by
  simp only [operandValue, found]
  cases list.operandValue? render instr <;> rfl

theorem operandValue?_unary (list : Listing) (render : Instr → Except Error Value)
    (node : UnaryNode) (operand : NodeId) :
    list.operandValue? render (node.instr operand) =
      if node = .dup then none else (render (node.instr operand)).toOption := by
  cases node <;> rfl

theorem operandValue?_binary (list : Listing) (render : Instr → Except Error Value)
    (node : BinaryNode) (left right : NodeId) :
    list.operandValue? render (node.instr left right) =
      (render (node.instr left right)).toOption := by
  cases node <;> rfl

theorem renderWithin_unary {list : Listing} {operand : NodeId} {instr : Instr}
    (found : list.node? operand = some instr) (node : UnaryNode) (fuel : Nat) :
    (list.renderWithin (fuel + 1) (node.instr operand)).toOption =
      (list.operandValue? (list.renderWithin fuel) instr).bind node.value? := by
  rw [renderWithin, valueOfNode_unary]
  intro role
  exact toOption_operandValue _ role found

theorem renderWithin_binary {list : Listing} {left right : NodeId} {leftInstr rightInstr : Instr}
    (leftFound : list.node? left = some leftInstr) (rightFound : list.node? right = some rightInstr)
    (node : BinaryNode) (fuel : Nat) :
    (list.renderWithin (fuel + 1) (node.instr left right)).toOption =
      (list.operandValue? (list.renderWithin fuel) leftInstr).bind fun value =>
        (list.operandValue? (list.renderWithin fuel) rightInstr).bind (node.value? value) := by
  rw [renderWithin, valueOfNode_binary]
  · intro role
    exact toOption_operandValue _ role leftFound
  · intro role
    exact toOption_operandValue _ role rightFound

/-- As many steps as a tree is deep are enough to find the value of a node that stands for it. -/
theorem Denotes.operandValue? {list : Listing} {id : NodeId} {tree : ExprTree}
    (denotes : list.Denotes id tree) {instr : Instr} (found : list.node? id = some instr)
    {fuel : Nat} (deep : tree.depth ≤ fuel) :
    list.operandValue? (list.renderWithin fuel) instr = tree.operand? list := by
  induction denotes generalizing instr fuel with
  | leaf known elementary =>
      obtain rfl := Option.some.inj (known.symm.trans found)
      exact operandValue?_elementary list _ elementary
  | @unary id node operand tree known inner ih =>
      obtain rfl := Option.some.inj (known.symm.trans found)
      obtain ⟨instr, innerFound⟩ := inner.found
      cases fuel with
      | zero => simp [ExprTree.depth] at deep
      | succ fuel =>
          have innerDeep : tree.depth ≤ fuel := by simpa [ExprTree.depth] using deep
          rw [operandValue?_unary, renderWithin_unary innerFound, ih innerFound innerDeep]
          cases node <;> simp [ExprTree.operand?]
  | @binary id node left right leftTree rightTree known first second ihFirst ihSecond =>
      obtain rfl := Option.some.inj (known.symm.trans found)
      obtain ⟨leftInstr, leftFound⟩ := first.found
      obtain ⟨rightInstr, rightFound⟩ := second.found
      cases fuel with
      | zero => simp [ExprTree.depth] at deep
      | succ fuel =>
          simp only [ExprTree.depth] at deep
          rw [operandValue?_binary, renderWithin_binary leftFound rightFound,
            ihFirst leftFound (by omega), ihSecond rightFound (by omega), ExprTree.operand?]

theorem Denotes.renderWithin_unary {list : Listing} {operand : NodeId} {tree : ExprTree}
    (inner : list.Denotes operand tree) (node : UnaryNode) {fuel : Nat} (deep : tree.depth < fuel) :
    (list.renderWithin fuel (node.instr operand)).toOption =
      (tree.operand? list).bind node.value? := by
  obtain ⟨instr, found⟩ := inner.found
  obtain ⟨fuel, rfl⟩ := Nat.exists_eq_add_one_of_ne_zero (Nat.ne_zero_of_lt deep)
  rw [Listing.renderWithin_unary found, inner.operandValue? found (by omega)]

theorem Denotes.renderWithin_binary {list : Listing} {left right : NodeId}
    {leftTree rightTree : ExprTree} (first : list.Denotes left leftTree)
    (second : list.Denotes right rightTree) (node : BinaryNode) {fuel : Nat}
    (deep : max leftTree.depth rightTree.depth < fuel) :
    (list.renderWithin fuel (node.instr left right)).toOption =
      (leftTree.operand? list).bind fun value => (rightTree.operand? list).bind (node.value? value) := by
  obtain ⟨leftInstr, leftFound⟩ := first.found
  obtain ⟨rightInstr, rightFound⟩ := second.found
  obtain ⟨fuel, rfl⟩ := Nat.exists_eq_add_one_of_ne_zero (Nat.ne_zero_of_lt deep)
  rw [Listing.renderWithin_binary leftFound rightFound, first.operandValue? leftFound (by omega),
    second.operandValue? rightFound (by omega)]

theorem Denotes.renderWithin {list : Listing} {id : NodeId} {tree : ExprTree}
    (denotes : list.Denotes id tree) {instr : Instr} (found : list.node? id = some instr)
    (composite : instr.operands ≠ []) {fuel : Nat} (deep : tree.depth ≤ fuel) :
    (list.renderWithin fuel instr).toOption = tree.pushed? list := by
  cases denotes with
  | leaf known elementary =>
      obtain rfl := Option.some.inj (known.symm.trans found)
      exact absurd elementary composite
  | @unary _ node operand tree known inner =>
      obtain rfl := Option.some.inj (known.symm.trans found)
      rw [inner.renderWithin_unary node deep, ExprTree.pushed?_unary]
  | @binary _ node left right leftTree rightTree known first second =>
      obtain rfl := Option.some.inj (known.symm.trans found)
      rw [first.renderWithin_binary second node deep]
      rfl

section Descending

variable {list : Listing} (descending : list.Descending)
include descending

theorem Denotes.depth_le_size {id : NodeId} {tree : ExprTree} (denotes : list.Denotes id tree) :
    tree.depth ≤ list.nodes.size :=
  Nat.le_trans (denotes.depth_le descending) (Nat.succ_le_of_lt denotes.lt_size)

theorem Denotes.assignable? {id : NodeId} {tree : ExprTree} (denotes : list.Denotes id tree)
    {instr : Instr} (found : list.node? id = some instr) :
    list.assignable? instr = tree.operand? list := by
  have shallow := denotes.depth_le_size descending
  exact denotes.operandValue? found (by omega)

theorem Denotes.render_unary {operand : NodeId} {tree : ExprTree}
    (inner : list.Denotes operand tree) (node : UnaryNode) :
    (list.render (node.instr operand)).toOption = (tree.operand? list).bind node.value? := by
  have shallow := inner.depth_le_size descending
  exact inner.renderWithin_unary node (by omega)

theorem Denotes.render_binary {left right : NodeId} {leftTree rightTree : ExprTree}
    (first : list.Denotes left leftTree) (second : list.Denotes right rightTree)
    (node : BinaryNode) :
    (list.render (node.instr left right)).toOption =
      (leftTree.operand? list).bind fun value => (rightTree.operand? list).bind (node.value? value) := by
  have shallowLeft := first.depth_le_size descending
  have shallowRight := second.depth_le_size descending
  exact first.renderWithin_binary second node (by omega)

theorem Denotes.render {id : NodeId} {tree : ExprTree} (denotes : list.Denotes id tree)
    {instr : Instr} (found : list.node? id = some instr) (composite : instr.operands ≠ []) :
    (list.render instr).toOption = tree.pushed? list := by
  have shallow := denotes.depth_le_size descending
  exact denotes.renderWithin found composite (by omega)

end Descending

theorem Denotes.mono {list next : Listing}
    (kept : ∀ id instr, list.node? id = some instr → next.node? id = some instr)
    {id : NodeId} {tree : ExprTree} (denotes : list.Denotes id tree) : next.Denotes id tree := by
  induction denotes with
  | leaf found elementary => exact .leaf (kept _ _ found) elementary
  | unary found inner ih => exact .unary (kept _ _ found) ih
  | binary found first second ihFirst ihSecond => exact .binary (kept _ _ found) ihFirst ihSecond

theorem leafValue?_of_names {list next : Listing} (same : next.names = list.names) (instr : Instr) :
    next.leafValue? instr = list.leafValue? instr := by
  simp only [leafValue?, localValue?, localName, boundName?, same]

end Listing

theorem ExprTree.operand?_of_names {list next : Listing} (same : next.names = list.names)
    (tree : ExprTree) : tree.operand? next = tree.operand? list := by
  induction tree with
  | leaf instr => exact Listing.leafValue?_of_names same instr
  | unary node operand ih => cases node <;> simp only [operand?, ih]
  | binary node left right ihLeft ihRight => simp only [operand?, ihLeft, ihRight]

end BytecodeToC
