import BytecodeToC.Proofs.ExprTree
import Mathlib.Data.List.Forall2

/-!
One fold, seen in the arena and seen in the sequence of trees that the order stands for. A fold
replaces a window of operands and an operator by one node; in the sequence of trees it replaces
their trees by the tree of the node, and whether it is possible depends on those trees alone.
-/

namespace BytecodeToC

/-! Operators, constants and array loads are told apart by their opcodes. -/

theorem Opcode.not_binary_of_unary {op : Opcode} (unary : op.unary?.isSome = true) :
    op.binary? = none ∧ op.isArrayLoad = false := by
  unfold unary? at unary
  split at unary
  all_goals first | exact ⟨rfl, rfl⟩ | simp at unary

theorem Opcode.not_operator_of_immediate {op : Opcode} {immediate : Option Int32}
    (constant : (Instr.immediateValue? op immediate).isSome = true) :
    BinaryNode.ofOpcode? op = none ∧ UnaryNode.ofOpcode? op = none := by
  unfold Instr.immediateValue? at constant
  split at constant
  all_goals first | exact ⟨rfl, rfl⟩ | simp at constant

theorem Listing.leafValue?_operator (list : Listing) {op : Opcode} (operator : op.isOperator = true)
    (immediate : Option Int32) : list.leafValue? (.basic op immediate) = none := by
  cases constant : Instr.immediateValue? op immediate with
  | none => simp [leafValue?, constant]
  | some found =>
      have others := Opcode.not_operator_of_immediate (Option.isSome_of_mem constant)
      simp [Opcode.isOperator, others] at operator

theorem BinaryNode.ofOpcode?_of_unary {op : Opcode} {node : UnaryNode}
    (operator : UnaryNode.ofOpcode? op = some node) : BinaryNode.ofOpcode? op = none := by
  unfold UnaryNode.ofOpcode? at operator
  split at operator
  next unary =>
    have others := Opcode.not_binary_of_unary unary
    simp [BinaryNode.ofOpcode?, others]
  next =>
    split at operator
    next same => subst same; rfl
    next =>
      split at operator
      next same => subst same; rfl
      next => simp at operator

theorem UnaryNode.opcode_of_ofOpcode? {op : Opcode} {node : UnaryNode}
    (operator : UnaryNode.ofOpcode? op = some node) : node.opcode = op := by
  unfold UnaryNode.ofOpcode? at operator
  split at operator
  next => cases operator; rfl
  next =>
    split at operator
    next same => cases operator; exact same.symm
    next =>
      split at operator
      next same => cases operator; exact same.symm
      next => simp at operator

theorem BinaryNode.opcode_of_ofOpcode? {op : Opcode} {node : BinaryNode}
    (operator : BinaryNode.ofOpcode? op = some node) : node.opcode = op := by
  unfold BinaryNode.ofOpcode? at operator
  split at operator
  next => cases operator; rfl
  next =>
    split at operator
    next => cases operator; rfl
    next => simp at operator

namespace Listing

/-- The operator that ends a window folds over the operands before it into a node. -/
inductive Foldable (list : Listing) (op : Opcode) : List NodeId → Instr → Prop
  | dup {source instr} (operator : UnaryNode.ofOpcode? op = some .dup)
      (found : list.node? source = some instr) (load : isObjectLoad instr = true) :
      Foldable list op [source] (UnaryNode.dup.instr source)
  | unary {node operand instr value} (operator : UnaryNode.ofOpcode? op = some node)
      (single : node ≠ .dup) (found : list.node? operand = some instr)
      (assignable : list.assignable? instr = some value)
      (fits : (list.render (node.instr operand)).toBool = true) :
      Foldable list op [operand] (node.instr operand)
  | binary {node left right leftInstr rightInstr leftValue rightValue}
      (operator : BinaryNode.ofOpcode? op = some node)
      (leftFound : list.node? left = some leftInstr)
      (rightFound : list.node? right = some rightInstr)
      (leftAssignable : list.assignable? leftInstr = some leftValue)
      (rightAssignable : list.assignable? rightInstr = some rightValue)
      (calm : ¬(leftValue.effect = .mayTrap ∧ rightValue.effect = .mayTrap))
      (fits : (list.render (node.instr left right)).toBool = true) :
      Foldable list op [left, right] (node.instr left right)

def withNode (list : Listing) (before after : List NodeId) (node : Instr) : Listing :=
  { list with nodes := list.nodes.push node, order := before ++ list.nodes.size :: after }

theorem candidate?_binary (list : Listing) (pos : Nat) {op : Opcode} {node : BinaryNode}
    (operator : BinaryNode.ofOpcode? op = some node) :
    list.candidate? op pos =
      (list.operandsBefore? pos).map fun (left, right) => (2, node.instr left right) := by
  unfold BinaryNode.ofOpcode? at operator
  split at operator
  next binary =>
    obtain rfl := Option.some.inj operator
    simp only [candidate?, binary, if_true]
    rfl
  next other =>
    split at operator
    next load =>
      obtain rfl := Option.some.inj operator
      have notUnary : ¬op.unary?.isSome = true := by
        intro unary
        have clash := (Opcode.not_binary_of_unary unary).2
        simp [load] at clash
      simp only [candidate?, other, notUnary, load, if_true]
      rfl
    next => simp at operator

theorem candidate?_unary (list : Listing) (pos : Nat) {op : Opcode} {node : UnaryNode}
    (operator : UnaryNode.ofOpcode? op = some node) :
    list.candidate? op pos =
      (if node = .dup then list.dupSource? pos else list.operandBefore? pos).map
        fun operand => (1, node.instr operand) := by
  unfold UnaryNode.ofOpcode? at operator
  split at operator
  next unary =>
    obtain rfl := Option.some.inj operator
    have notBinary := (Opcode.not_binary_of_unary unary).1
    simp [candidate?, notBinary, unary, UnaryNode.instr]
  next =>
    split at operator
    next same =>
      subst same
      obtain rfl := Option.some.inj operator
      rfl
    next =>
      split at operator
      next same =>
        subst same
        obtain rfl := Option.some.inj operator
        rfl
      next => simp at operator

theorem candidate?_other (list : Listing) (pos : Nat) {op : Opcode}
    (notBinary : BinaryNode.ofOpcode? op = none) (notUnary : UnaryNode.ofOpcode? op = none) :
    list.candidate? op pos = none := by
  grind [candidate?, BinaryNode.ofOpcode?, UnaryNode.ofOpcode?]

theorem getElem?_eq_some_iff_split (order : List NodeId) (pos : Nat) (id : NodeId) :
    order[pos]? = some id ↔ ∃ before after, order = before ++ id :: after ∧ pos = before.length := by
  constructor
  · intro found
    obtain ⟨bound, rfl⟩ := List.getElem?_eq_some_iff.mp found
    refine ⟨order.take pos, order.drop (pos + 1), ?_, by simp; omega⟩
    rw [← List.drop_eq_getElem_cons bound, List.take_append_drop]
  · rintro ⟨before, after, rfl, rfl⟩
    simp

theorem operandBefore?_eq_some_iff (list : Listing) (pos : Nat) (operand : NodeId) :
    list.operandBefore? pos = some operand ↔
      ∃ before rest instr value, list.order = before ++ operand :: rest ∧
        pos = before.length + 1 ∧ list.node? operand = some instr ∧
        list.assignable? instr = some value := by
  unfold operandBefore? assignableAt? at?
  constructor
  · intro found
    split at found
    next positive =>
      simp only [Option.bind_eq_some_iff] at found
      obtain ⟨value, ⟨instr, ⟨id, atId, node⟩, assignable⟩, atOperand⟩ := found
      obtain rfl := Option.some.inj (atId.symm.trans atOperand)
      obtain ⟨before, rest, split, length⟩ := (getElem?_eq_some_iff_split ..).mp atOperand
      exact ⟨before, rest, instr, value, split, by omega, node, assignable⟩
    next => simp at found
  · rintro ⟨before, rest, instr, value, split, rfl, node, assignable⟩
    simp [split, node, assignable]

theorem dupSource?_eq_some_iff (list : Listing) (pos : Nat) (source : NodeId) :
    list.dupSource? pos = some source ↔
      ∃ before rest instr, list.order = before ++ source :: rest ∧ pos = before.length + 1 ∧
        list.node? source = some instr ∧ isObjectLoad instr = true := by
  unfold dupSource? at?
  constructor
  · intro found
    split at found
    next positive =>
      simp only [Option.bind_eq_bind, Option.bind_eq_some_iff] at found
      obtain ⟨instr, ⟨id, atId, node⟩, chosen⟩ := found
      split at chosen
      next load =>
        obtain rfl := Option.some.inj (atId.symm.trans chosen)
        obtain ⟨before, rest, split, length⟩ := (getElem?_eq_some_iff_split ..).mp chosen
        exact ⟨before, rest, instr, split, by omega, node, load⟩
      next => simp at chosen
    next => simp at found
  · rintro ⟨before, rest, instr, split, rfl, node, load⟩
    simp [split, node, load]

theorem operandsBefore?_eq_some_iff (list : Listing) (pos : Nat) (left right : NodeId) :
    list.operandsBefore? pos = some (left, right) ↔
      ∃ before rest leftInstr rightInstr leftValue rightValue,
        list.order = before ++ left :: right :: rest ∧ pos = before.length + 2 ∧
        list.node? left = some leftInstr ∧ list.node? right = some rightInstr ∧
        list.assignable? leftInstr = some leftValue ∧
        list.assignable? rightInstr = some rightValue ∧
        ¬(leftValue.effect = .mayTrap ∧ rightValue.effect = .mayTrap) := by
  unfold operandsBefore? assignableAt? at?
  constructor
  · intro found
    split at found
    next enough =>
      simp only [Option.bind_eq_bind, Option.bind_eq_some_iff] at found
      obtain ⟨leftValue, ⟨leftInstr, ⟨leftId, atLeft, leftNode⟩, leftAssignable⟩, rightValue,
        ⟨rightInstr, ⟨rightId, atRight, rightNode⟩, rightAssignable⟩, chosen⟩ := found
      split at chosen
      next => simp at chosen
      next calm =>
        simp only [atLeft, atRight, Option.bind_some, Option.some.injEq, Prod.mk.injEq] at chosen
        obtain ⟨rfl, rfl⟩ := chosen
        obtain ⟨before, rest, split, length⟩ := (getElem?_eq_some_iff_split ..).mp atLeft
        have offset : pos - 1 = before.length + 1 := by omega
        have second : rest.head? = some rightId := by
          rw [split, offset, List.getElem?_append_right (by omega)] at atRight
          simpa [List.head?_eq_getElem?] using atRight
        obtain ⟨after, rfl⟩ := List.head?_eq_some_iff.mp second
        exact ⟨before, after, leftInstr, rightInstr, leftValue, rightValue, split, by omega,
          leftNode, rightNode, leftAssignable, rightAssignable, calm⟩
    next => simp at found
  · rintro ⟨before, rest, leftInstr, rightInstr, leftValue, rightValue, split, rfl, leftNode,
      rightNode, leftAssignable, rightAssignable, calm⟩
    simp [split, leftNode, rightNode, leftAssignable, rightAssignable, calm]

theorem candidate?_eq_some_iff (list : Listing) (op : Opcode) (pos arity : Nat) (node : Instr) :
    (list.candidate? op pos = some (arity, node) ∧
        (isDup node || (list.render node).toBool) = true) ↔
      ∃ before operands rest, list.order = before ++ operands ++ rest ∧
        pos = before.length + operands.length ∧ arity = operands.length ∧
        list.Foldable op operands node := by
  constructor
  · rintro ⟨candidate, fits⟩
    cases binary : BinaryNode.ofOpcode? op with
    | some kind =>
        rw [candidate?_binary list pos binary, Option.map_eq_some_iff] at candidate
        obtain ⟨⟨left, right⟩, operands, same⟩ := candidate
        obtain ⟨rfl, rfl⟩ := Prod.mk.inj same
        obtain ⟨before, rest, leftInstr, rightInstr, leftValue, rightValue, split, rfl, leftFound,
          rightFound, leftAssignable, rightAssignable, calm⟩ :=
          (operandsBefore?_eq_some_iff ..).mp operands
        refine ⟨before, [left, right], rest, by simp [split], rfl, rfl, ?_⟩
        refine .binary binary leftFound rightFound leftAssignable rightAssignable calm ?_
        cases kind <;> simpa [isDup, BinaryNode.instr] using fits
    | none =>
        cases unary : UnaryNode.ofOpcode? op with
        | none => simp [candidate?_other list pos binary unary] at candidate
        | some kind =>
            rw [candidate?_unary list pos unary, Option.map_eq_some_iff] at candidate
            obtain ⟨operand, chosen, same⟩ := candidate
            obtain ⟨rfl, rfl⟩ := Prod.mk.inj same
            by_cases doubled : kind = .dup
            · subst doubled
              obtain ⟨before, rest, instr, split, rfl, found, load⟩ :=
                (dupSource?_eq_some_iff ..).mp chosen
              exact ⟨before, [operand], rest, by simp [split], rfl, rfl, .dup unary found load⟩
            · rw [if_neg doubled] at chosen
              obtain ⟨before, rest, instr, value, split, rfl, found, assignable⟩ :=
                (operandBefore?_eq_some_iff ..).mp chosen
              refine ⟨before, [operand], rest, by simp [split], rfl, rfl,
                .unary unary doubled found assignable ?_⟩
              cases kind <;> simp_all [isDup, UnaryNode.instr]
  · rintro ⟨before, operands, rest, split, rfl, rfl, foldable⟩
    cases foldable with
    | @dup source instr operator found load =>
        have chosen : list.dupSource? (before.length + 1) = some source :=
          (dupSource?_eq_some_iff ..).mpr ⟨before, rest, instr, by simp [split], rfl, found, load⟩
        rw [candidate?_unary list _ operator]
        simp [chosen, UnaryNode.instr, isDup]
    | @unary kind operand instr value operator single found assignable fits =>
        have chosen : list.operandBefore? (before.length + 1) = some operand :=
          (operandBefore?_eq_some_iff ..).mpr
            ⟨before, rest, instr, value, by simp [split], rfl, found, assignable⟩
        rw [candidate?_unary list _ operator]
        simp [chosen, single, fits]
    | @binary kind left right leftInstr rightInstr leftValue rightValue operator leftFound
        rightFound leftAssignable rightAssignable calm fits =>
        have chosen : list.operandsBefore? (before.length + 2) = some (left, right) :=
          (operandsBefore?_eq_some_iff ..).mpr ⟨before, rest, leftInstr, rightInstr, leftValue,
            rightValue, by simp [split], rfl, leftFound, rightFound, leftAssignable,
            rightAssignable, calm⟩
        rw [candidate?_binary list _ operator]
        simp [chosen, fits]

theorem replaceWindow_alloc {list : Listing} {before operands after : List NodeId} {operator : NodeId}
    (split : list.order = before ++ operands ++ operator :: after) (node : Instr) :
    (list.alloc node).2.replaceWindow before.length (before.length + operands.length)
      list.nodes.size = list.withNode before after node := by
  have rest : list.order.drop (before.length + operands.length + 1) = after := by
    rw [split, List.append_cons (before ++ operands)]
    exact List.drop_left' (by simp [Nat.add_assoc])
  simp only [replaceWindow, alloc, withNode, rest]
  simp [split]

theorem foldAt?_eq_some_iff (list : Listing) (pos start : Nat) (next : Listing) :
    list.foldAt? pos = some (start, next) ↔
      ∃ before operands operator after op immediate node,
        list.order = before ++ operands ++ operator :: after ∧
        list.node? operator = some (.basic op immediate) ∧ list.Foldable op operands node ∧
        pos = before.length + operands.length ∧ start = before.length ∧
        next = list.withNode before after node := by
  unfold foldAt? at?
  constructor
  · intro folded
    split at folded
    next op immediate atOperator =>
      simp only [Option.bind_eq_bind, Option.bind_eq_some_iff] at folded atOperator
      obtain ⟨operator, present, found⟩ := atOperator
      obtain ⟨⟨arity, node⟩, candidate, accepted⟩ := folded
      split at accepted
      next fits =>
        obtain ⟨before, operands, rest, split, rfl, rfl, foldable⟩ :=
          (candidate?_eq_some_iff ..).mp ⟨candidate, fits⟩
        have first : rest.head? = some operator := by
          rw [split, List.getElem?_append_right (by simp)] at present
          simpa [List.head?_eq_getElem?] using present
        obtain ⟨after, rfl⟩ := List.head?_eq_some_iff.mp first
        simp only [Option.some.injEq, Prod.mk.injEq] at accepted
        obtain ⟨rfl, rfl⟩ := accepted
        refine ⟨before, operands, operator, after, op, immediate, node, split, found, foldable, rfl,
          Nat.add_sub_cancel .., ?_⟩
        rw [Nat.add_sub_cancel, alloc_id, replaceWindow_alloc split]
      next => simp at accepted
    next => simp at folded
  · rintro ⟨before, operands, operator, after, op, immediate, node, split, found, foldable, rfl,
      rfl, rfl⟩
    obtain ⟨candidate, fits⟩ := (candidate?_eq_some_iff ..).mpr
      ⟨before, operands, operator :: after, split, rfl, rfl, foldable⟩
    have present : list.order[before.length + operands.length]? = some operator := by
      rw [split, List.getElem?_append_right (by simp)]
      simp
    simp only [present, found, candidate, fits, Option.bind_some, Option.bind_eq_bind, if_true,
      Nat.add_sub_cancel, alloc_id, replaceWindow_alloc split]

end Listing

/-! Folds of trees -/

namespace ExprTree

inductive Folds (list : Listing) (op : Opcode) : List ExprTree → ExprTree → Prop
  | unary {node operand value result} (operator : UnaryNode.ofOpcode? op = some node)
      (given : operand.operand? list = some value) (fits : node.value? value = some result)
      (load : node = .dup → ∃ instr, operand = .leaf instr ∧ Listing.isObjectLoad instr = true) :
      Folds list op [operand] (.unary node operand)
  | binary {node left right leftValue rightValue result}
      (operator : BinaryNode.ofOpcode? op = some node)
      (leftGiven : left.operand? list = some leftValue)
      (rightGiven : right.operand? list = some rightValue)
      (calm : ¬(leftValue.effect = .mayTrap ∧ rightValue.effect = .mayTrap))
      (fits : node.value? leftValue rightValue = some result) :
      Folds list op [left, right] (.binary node left right)

inductive Step (list : Listing) : List ExprTree → List ExprTree → Prop
  | fold (before after : List ExprTree) (immediate : Option Int32) {op operands tree}
      (folds : Folds list op operands tree) :
      Step list (before ++ operands ++ .leaf (.basic op immediate) :: after)
        (before ++ tree :: after)

theorem Folds.operator {list : Listing} {op : Opcode} {operands : List ExprTree} {tree : ExprTree}
    (folds : Folds list op operands tree) :
    (∃ node, UnaryNode.ofOpcode? op = some node) ∨ ∃ node, BinaryNode.ofOpcode? op = some node := by
  cases folds with
  | unary operator => exact .inl ⟨_, operator⟩
  | binary operator => exact .inr ⟨_, operator⟩

theorem Folds.isOperator {list : Listing} {op : Opcode} {operands : List ExprTree} {tree : ExprTree}
    (folds : Folds list op operands tree) : op.isOperator = true := by
  rcases folds.operator with ⟨node, operator⟩ | ⟨node, operator⟩
  · simp [Opcode.isOperator, operator]
  · simp [Opcode.isOperator, operator]

theorem Folds.code_eq {list : Listing} {op : Opcode} {operands : List ExprTree} {tree : ExprTree}
    (folds : Folds list op operands tree) (immediate : Option Int32) :
    tree.code = operands.flatMap code ++ (leaf (.basic op immediate)).code := by
  have plain : (Instr.basic op immediate).plain = .basic op none := by
    simp [Instr.plain, folds.isOperator]
  cases folds with
  | unary operator => simp [code, plain, UnaryNode.opcode_of_ofOpcode? operator]
  | binary operator => simp [code, plain, BinaryNode.opcode_of_ofOpcode? operator]

theorem Step.code_eq {list : Listing} {forest folded : List ExprTree}
    (step : Step list forest folded) : folded.flatMap code = forest.flatMap code := by
  obtain ⟨before, after, immediate, folds⟩ := step
  simp [folds.code_eq immediate]

theorem Folds.operand?_operator {list : Listing} {op : Opcode} {operands : List ExprTree}
    {tree : ExprTree} (folds : Folds list op operands tree) (immediate : Option Int32) :
    (leaf (.basic op immediate)).operand? list = none :=
  list.leafValue?_operator folds.isOperator immediate

theorem Folds.of_names {list next : Listing} (same : next.names = list.names) {op : Opcode}
    {operands : List ExprTree} {tree : ExprTree} (folds : Folds list op operands tree) :
    Folds next op operands tree := by
  cases folds with
  | unary operator given fits load =>
      exact .unary operator ((operand?_of_names same _).trans given) fits load
  | binary operator leftGiven rightGiven calm fits =>
      exact .binary operator ((operand?_of_names same _).trans leftGiven)
        ((operand?_of_names same _).trans rightGiven) calm fits

theorem Step.of_names {list next : Listing} (same : next.names = list.names)
    {forest folded : List ExprTree} (step : Step list forest folded) : Step next forest folded := by
  cases step with
  | fold before after immediate folds => exact .fold before after immediate (folds.of_names same)

end ExprTree

namespace Listing

theorem leafValue?_objectLoad (list : Listing) {instr : Instr} (load : isObjectLoad instr = true) :
    instr.operands = [] ∧ ∃ value, list.leafValue? instr = some value ∧ value.type = .object := by
  cases instr with
  | localVar op slot delta =>
      obtain rfl : op = .aload := by simpa [isObjectLoad] using load
      exact ⟨rfl, _, rfl, rfl⟩
  | namedLocal op slot name tag delta =>
      obtain rfl : op = .aload := by simpa [isObjectLoad] using load
      exact ⟨rfl, _, rfl, rfl⟩
  | _ => simp [isObjectLoad] at load

theorem node?_withNode_size (list : Listing) (before after : List NodeId) (node : Instr) :
    (list.withNode before after node).node? list.nodes.size = some node := by
  simp [withNode, node?]

theorem node?_withNode_of_some {list : Listing} (before after : List NodeId) (node : Instr)
    {id : NodeId} {instr : Instr} (found : list.node? id = some instr) :
    (list.withNode before after node).node? id = some instr := by
  have known := lt_size_of_node? found
  rw [← found]
  simp [withNode, node?, Array.getElem?_push, Nat.ne_of_lt known]

theorem node?_withNode {list : Listing} {before after : List NodeId} {node : Instr} {id : NodeId}
    {instr : Instr} (found : (list.withNode before after node).node? id = some instr) :
    list.node? id = some instr ∨ id = list.nodes.size ∧ instr = node := by
  simp only [withNode, node?, Array.getElem?_push] at found
  split at found
  next last => exact .inr ⟨last, (Option.some.inj found).symm⟩
  next => exact .inl found

theorem Denotes.withNode {list : Listing} {id : NodeId} {tree : ExprTree}
    (denotes : list.Denotes id tree) (before after : List NodeId) (node : Instr) :
    (list.withNode before after node).Denotes id tree :=
  denotes.mono fun _ _ found => node?_withNode_of_some before after node found

theorem Denotes.eq_leaf {list : Listing} {id : NodeId} {tree : ExprTree} {instr : Instr}
    (denotes : list.Denotes id tree) (found : list.node? id = some instr)
    (elementary : instr.operands = []) : tree = .leaf instr :=
  denotes.unique (.leaf found elementary)

theorem Denotes.withNode_unary {list : Listing} {operand : NodeId} {tree : ExprTree}
    (inner : list.Denotes operand tree) (node : UnaryNode) (before after : List NodeId) :
    (list.withNode before after (node.instr operand)).Denotes list.nodes.size (.unary node tree) :=
  .unary (node?_withNode_size ..) (inner.withNode ..)

theorem Denotes.withNode_binary {list : Listing} {left right : NodeId}
    {leftTree rightTree : ExprTree} (first : list.Denotes left leftTree)
    (second : list.Denotes right rightTree) (node : BinaryNode) (before after : List NodeId) :
    (list.withNode before after (node.instr left right)).Denotes list.nodes.size
      (.binary node leftTree rightTree) :=
  .binary (node?_withNode_size ..) (first.withNode ..) (second.withNode ..)

section Descending

variable {list : Listing} (descending : list.Descending)
include descending

theorem Foldable.folds {op : Opcode} {operands : List NodeId} {node : Instr}
    {trees : List ExprTree} (foldable : list.Foldable op operands node)
    (denoted : List.Forall₂ list.Denotes operands trees) :
    ∃ tree, ExprTree.Folds list op trees tree ∧
      ∀ before after, (list.withNode before after node).Denotes list.nodes.size tree := by
  cases foldable with
  | dup operator found load =>
      obtain _ | ⟨inner, _ | _⟩ := denoted
      obtain ⟨elementary, value, given, _⟩ := list.leafValue?_objectLoad load
      obtain rfl := inner.eq_leaf found elementary
      exact ⟨_, .unary operator given rfl fun _ => ⟨_, rfl, load⟩, inner.withNode_unary .dup⟩
  | @unary kind operand instr value operator single found assignable fits =>
      obtain _ | ⟨inner, _ | _⟩ := denoted
      have given := (inner.assignable? descending found).symm.trans assignable
      obtain ⟨result, rendered⟩ := (Result.toBool_eq_true_iff _).mp fits
      rw [inner.render_unary descending, given, Option.bind_some] at rendered
      exact ⟨_, .unary operator given rendered fun doubled => absurd doubled single,
        inner.withNode_unary kind⟩
  | @binary kind left right leftInstr rightInstr leftValue rightValue operator leftFound rightFound
      leftAssignable rightAssignable calm fits =>
      obtain _ | ⟨first, _ | ⟨second, _ | _⟩⟩ := denoted
      have leftGiven := (first.assignable? descending leftFound).symm.trans leftAssignable
      have rightGiven := (second.assignable? descending rightFound).symm.trans rightAssignable
      obtain ⟨result, rendered⟩ := (Result.toBool_eq_true_iff _).mp fits
      rw [first.render_binary descending second, leftGiven, rightGiven, Option.bind_some,
        Option.bind_some] at rendered
      exact ⟨_, .binary operator leftGiven rightGiven calm rendered,
        first.withNode_binary second kind⟩

theorem foldable_of_folds {op : Opcode} {operands : List NodeId} {trees : List ExprTree}
    {tree : ExprTree} (folds : ExprTree.Folds list op trees tree)
    (denoted : List.Forall₂ list.Denotes operands trees) :
    ∃ node, list.Foldable op operands node ∧
      ∀ before after, (list.withNode before after node).Denotes list.nodes.size tree := by
  cases folds with
  | @unary kind operandTree value result operator given fits load =>
      obtain _ | ⟨inner, _ | _⟩ := denoted
      obtain ⟨instr, found⟩ := inner.found
      refine ⟨_, ?_, inner.withNode_unary kind⟩
      by_cases doubled : kind = .dup
      · subst doubled
        obtain ⟨source, rfl, isLoad⟩ := load rfl
        obtain ⟨known⟩ := inner
        exact .dup operator known isLoad
      · refine .unary operator doubled found ((inner.assignable? descending found).trans given) ?_
        rw [Result.toBool_eq_true_iff, inner.render_unary descending, given]
        exact ⟨result, fits⟩
  | @binary kind leftTree rightTree leftValue rightValue result operator leftGiven rightGiven calm
      fits =>
      obtain _ | ⟨first, _ | ⟨second, _ | _⟩⟩ := denoted
      obtain ⟨leftInstr, leftFound⟩ := first.found
      obtain ⟨rightInstr, rightFound⟩ := second.found
      refine ⟨_, ?_, first.withNode_binary second kind⟩
      refine .binary operator leftFound rightFound
        ((first.assignable? descending leftFound).trans leftGiven)
        ((second.assignable? descending rightFound).trans rightGiven) calm ?_
      rw [Result.toBool_eq_true_iff, first.render_binary descending second, leftGiven, rightGiven]
      exact ⟨result, fits⟩

end Descending

def StandsFor (list : Listing) (forest : List ExprTree) : Prop :=
  List.Forall₂ list.Denotes list.order forest

theorem StandsFor.unique {list : Listing} {forest trees : List ExprTree}
    (stands : list.StandsFor forest) (again : list.StandsFor trees) : trees = forest := by
  unfold StandsFor at stands again
  generalize list.order = order at stands again
  induction stands generalizing trees with
  | nil =>
      cases again
      rfl
  | cons denotes _ ih =>
      obtain _ | ⟨here, rest⟩ := again
      rw [here.unique denotes, ih rest]

theorem StandsFor.eq_iff {list : Listing} {forest trees : List ExprTree}
    (stands : list.StandsFor forest) : list.StandsFor trees ↔ trees = forest := by
  constructor
  · exact stands.unique
  · rintro rfl
    exact stands

structure Represents (list : Listing) (forest : List ExprTree) : Prop where
  descending : list.Descending
  trees : list.StandsFor forest

theorem Foldable.operands_eq {list : Listing} {op : Opcode} {operands : List NodeId} {node : Instr}
    (foldable : list.Foldable op operands node) : node.operands = operands := by
  cases foldable <;> simp

theorem Descending.withNode {list : Listing} (descending : list.Descending)
    (before after : List NodeId) {node : Instr}
    (known : ∀ operand ∈ node.operands, operand < list.nodes.size) :
    (list.withNode before after node).Descending := by
  intro id instr found operand refers
  rcases node?_withNode found with older | ⟨rfl, rfl⟩
  · exact descending id instr older operand refers
  · exact known operand refers

theorem forall₂_append_left {α β : Type} {related : α → β → Prop} {first second : List α}
    {whole : List β} (all : List.Forall₂ related (first ++ second) whole) :
    ∃ left right, whole = left ++ right ∧ List.Forall₂ related first left ∧
      List.Forall₂ related second right := by
  induction first generalizing whole with
  | nil => exact ⟨[], whole, rfl, .nil, all⟩
  | cons head tail ih =>
      obtain _ | ⟨here, rest⟩ := all
      obtain ⟨left, right, rfl, before, after⟩ := ih rest
      exact ⟨_ :: left, right, rfl, .cons here before, after⟩

theorem forall₂_append_right {α β : Type} {related : α → β → Prop} {whole : List α}
    {first second : List β} (all : List.Forall₂ related whole (first ++ second)) :
    ∃ left right, whole = left ++ right ∧ List.Forall₂ related left first ∧
      List.Forall₂ related right second := by
  obtain ⟨left, right, split, before, after⟩ := forall₂_append_left all.flip
  exact ⟨left, right, split, before.flip, after.flip⟩

theorem denoted_lt_size {list : Listing} {ids : List NodeId} {trees : List ExprTree}
    (denoted : List.Forall₂ list.Denotes ids trees) : ∀ id ∈ ids, id < list.nodes.size := by
  induction denoted with
  | nil => simp
  | cons denotes _ ih =>
      intro id member
      rcases List.mem_cons.mp member with rfl | later
      · exact denotes.lt_size
      · exact ih id later

theorem denoted_withNode {list : Listing} {ids : List NodeId} {trees : List ExprTree}
    (denoted : List.Forall₂ list.Denotes ids trees) (before after : List NodeId) (node : Instr) :
    List.Forall₂ (list.withNode before after node).Denotes ids trees :=
  denoted.imp fun _ _ denotes => denotes.withNode before after node

theorem Represents.withNode {list : Listing} {before operands after : List NodeId}
    {beforeTrees operandTrees afterTrees : List ExprTree} {op : Opcode} {node : Instr}
    {tree : ExprTree} (descending : list.Descending)
    (beforeDenoted : List.Forall₂ list.Denotes before beforeTrees)
    (operandsDenoted : List.Forall₂ list.Denotes operands operandTrees)
    (afterDenoted : List.Forall₂ list.Denotes after afterTrees)
    (foldable : list.Foldable op operands node)
    (denotes : (list.withNode before after node).Denotes list.nodes.size tree) :
    (list.withNode before after node).Represents (beforeTrees ++ tree :: afterTrees) := by
  constructor
  · apply descending.withNode
    rw [foldable.operands_eq]
    exact denoted_lt_size operandsDenoted
  · exact List.rel_append (denoted_withNode beforeDenoted ..)
      (.cons denotes (denoted_withNode afterDenoted ..))

theorem Represents.foldAt? {list next : Listing} {forest : List ExprTree} {pos start : Nat}
    (represents : list.Represents forest) (folded : list.foldAt? pos = some (start, next)) :
    ∃ shorter, ExprTree.Step list forest shorter ∧ next.Represents shorter ∧
      next.names = list.names := by
  obtain ⟨before, operands, operator, after, op, immediate, node, split, found, foldable, rfl, rfl,
    rfl⟩ := (foldAt?_eq_some_iff ..).mp folded
  have trees := represents.trees
  rw [StandsFor, split] at trees
  obtain ⟨window, rest, rfl, windowDenoted, restDenoted⟩ := forall₂_append_left trees
  obtain ⟨beforeTrees, operandTrees, rfl, beforeDenoted, operandsDenoted⟩ :=
    forall₂_append_left windowDenoted
  obtain _ | ⟨operatorDenotes, afterDenoted⟩ := restDenoted
  obtain rfl := operatorDenotes.eq_leaf found rfl
  obtain ⟨tree, folds, denotes⟩ := foldable.folds represents.descending operandsDenoted
  exact ⟨_, .fold beforeTrees _ immediate folds,
    .withNode represents.descending beforeDenoted operandsDenoted afterDenoted foldable
      (denotes before after), rfl⟩

theorem Represents.exists_foldAt? {list : Listing} {forest shorter : List ExprTree}
    (represents : list.Represents forest) (step : ExprTree.Step list forest shorter) :
    ∃ pos start next, list.foldAt? pos = some (start, next) := by
  obtain ⟨beforeTrees, afterTrees, immediate, folds⟩ := step
  obtain ⟨window, rest, split, windowDenoted, restDenoted⟩ := forall₂_append_right represents.trees
  obtain ⟨before, operands, rfl, beforeDenoted, operandsDenoted⟩ :=
    forall₂_append_right windowDenoted
  obtain _ | ⟨operatorDenotes, afterDenoted⟩ := restDenoted
  obtain ⟨node, foldable, denotes⟩ := foldable_of_folds represents.descending folds operandsDenoted
  obtain ⟨found⟩ := operatorDenotes
  exact ⟨_, _, _, (foldAt?_eq_some_iff ..).mpr
    ⟨before, operands, _, _, _, immediate, node, split, found, foldable, rfl, rfl, rfl⟩⟩

end Listing

end BytecodeToC
