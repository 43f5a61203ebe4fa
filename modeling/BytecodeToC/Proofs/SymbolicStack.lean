import BytecodeToC.Proofs.FoldRun

/-!
Folding keeps what a listing computes. A listing runs over a stack of typed C texts: operands and
expression nodes push their values, operators work on the texts, and every other instruction does
to the stack what an arbitrary interpretation says.
-/

namespace BytecodeToC

abbrev SymbolicStack := List (StackType × String)

def Value.entry (value : Value) : StackType × String := (value.type, value.text)

def UnaryNode.apply : UnaryNode → SymbolicStack → Option SymbolicStack
  | arith op, (_, operand) :: rest =>
    op.unary?.map fun unary => (unary.resultType, unary.text operand) :: rest
  | arrayLength, (_, array) :: rest => some ((.int, "CHECKED_ARRAY_LENGTH(" ++ array ++ ")") :: rest)
  | dup, top :: rest => some (top :: top :: rest)
  | _, [] => none

def BinaryNode.apply : BinaryNode → SymbolicStack → Option SymbolicStack
  | arith op, (_, right) :: (_, left) :: rest =>
    op.binary?.map fun binary => (binary.resultType, binary.text left right) :: rest
  | arrayLoad op, (_, index) :: (_, array) :: rest =>
    op.elementType?.map fun element =>
      (element.stackType,
        "ELEMENT_ACCESS_" ++ element.suffix ++ "(" ++ array ++ ", " ++ index ++ ")") :: rest
  | _, _ => none

def Opcode.operate? (op : Opcode) : Option (SymbolicStack → Option SymbolicStack) :=
  match BinaryNode.ofOpcode? op with
  | some node => some node.apply
  | none => (UnaryNode.ofOpcode? op).map UnaryNode.apply

namespace Listing

def executeLeaf (list : Listing) (interpret : Instr → SymbolicStack → Option SymbolicStack)
    (instr : Instr) (stack : SymbolicStack) : Option SymbolicStack :=
  match list.leafValue? instr with
  | some value => some (value.entry :: stack)
  | none =>
    match instr with
    | .basic op _ => op.operate?.getD (interpret instr) stack
    | _ => interpret instr stack

def execute (list : Listing) (interpret : Instr → SymbolicStack → Option SymbolicStack)
    (instr : Instr) (stack : SymbolicStack) : Option SymbolicStack :=
  match instr with
  | .arith .. | .arrayLoad .. | .arrayLength .. =>
    (list.render instr).toOption.map fun value => value.entry :: stack
  | .dup _ => (list.render instr).toOption.map fun value => value.entry :: value.entry :: stack
  | leaf => list.executeLeaf interpret leaf stack

def run (list : Listing) (interpret : Instr → SymbolicStack → Option SymbolicStack)
    (stack : SymbolicStack) : Option SymbolicStack :=
  list.instrs.foldlM (fun stack instr => list.execute interpret instr stack) stack

end Listing

theorem UnaryNode.apply_entry {node : UnaryNode} {value result : Value} (single : node ≠ .dup)
    (fits : node.value? value = some result) (rest : SymbolicStack) :
    node.apply (value.entry :: rest) = some (result.entry :: rest) := by
  cases node with
  | arith op =>
      obtain ⟨unary, found, rfl⟩ := of_value?_arith fits
      simp [UnaryNode.apply, Value.entry, found]
  | arrayLength =>
      obtain rfl := of_value?_arrayLength fits
      rfl
  | dup => contradiction

theorem BinaryNode.apply_entry {node : BinaryNode} {left right result : Value}
    (fits : node.value? left right = some result) (rest : SymbolicStack) :
    node.apply (right.entry :: left.entry :: rest) = some (result.entry :: rest) := by
  cases node with
  | arith op =>
      obtain ⟨binary, found, rfl⟩ := of_value?_arith fits
      simp [BinaryNode.apply, Value.entry, found]
  | arrayLoad op =>
      obtain ⟨element, found, rfl⟩ := of_value?_arrayLoad fits
      simp [BinaryNode.apply, Value.entry, found]

namespace ExprTree

variable (interpret : Instr → SymbolicStack → Option SymbolicStack)

def execute (list : Listing) : ExprTree → SymbolicStack → Option SymbolicStack
  | leaf instr, stack => list.executeLeaf interpret instr stack
  | unary .dup source, stack =>
    (source.operand? list).map fun value => value.entry :: value.entry :: stack
  | tree, stack => (tree.operand? list).map fun value => value.entry :: stack

def runAll (list : Listing) (forest : List ExprTree) (stack : SymbolicStack) :
    Option SymbolicStack :=
  forest.foldlM (fun stack tree => tree.execute interpret list stack) stack

theorem runAll_cons (list : Listing) (tree : ExprTree) (rest : List ExprTree)
    (stack : SymbolicStack) :
    runAll interpret list (tree :: rest) stack =
      (tree.execute interpret list stack).bind (runAll interpret list rest) := by
  simp only [runAll, List.foldlM_cons]
  rfl

theorem runAll_append (list : Listing) (first second : List ExprTree) (stack : SymbolicStack) :
    runAll interpret list (first ++ second) stack =
      (runAll interpret list first stack).bind (runAll interpret list second) := by
  simp only [runAll, List.foldlM_append]
  rfl

theorem execute_of_names {list next : Listing} (same : next.names = list.names) (tree : ExprTree)
    (stack : SymbolicStack) : tree.execute interpret next stack = tree.execute interpret list stack := by
  cases tree with
  | leaf instr => simp only [execute, Listing.executeLeaf, Listing.leafValue?_of_names same]
  | unary node operand => cases node <;> simp only [execute, operand?_of_names same]
  | binary node left right => simp only [execute, operand?_of_names same]

theorem runAll_of_names {list next : Listing} (same : next.names = list.names)
    (forest : List ExprTree) (stack : SymbolicStack) :
    runAll interpret next forest stack = runAll interpret list forest stack := by
  simp only [runAll, execute_of_names interpret same]

theorem execute_operand {list : Listing} {tree : ExprTree} {value : Value}
    (given : tree.operand? list = some value) (stack : SymbolicStack) :
    tree.execute interpret list stack = some (value.entry :: stack) := by
  cases tree with
  | leaf instr =>
      simp only [operand?] at given
      simp [execute, Listing.executeLeaf, given]
  | unary node operand => cases node <;> simp_all [execute, operand?]
  | binary node left right => simp [execute, given]

theorem execute_operator {list : Listing} {op : Opcode} {immediate : Option Int32}
    {operate : SymbolicStack → Option SymbolicStack}
    (silent : (leaf (.basic op immediate)).operand? list = none)
    (operator : op.operate? = some operate) (stack : SymbolicStack) :
    (leaf (.basic op immediate)).execute interpret list stack = operate stack := by
  simp only [operand?] at silent
  simp [execute, Listing.executeLeaf, silent, operator]

theorem runAll_window {list : Listing} {op : Opcode} {operands : List ExprTree} {tree : ExprTree}
    (folds : Folds list op operands tree) (immediate : Option Int32) (stack : SymbolicStack) :
    runAll interpret list (operands ++ [leaf (.basic op immediate)]) stack =
      tree.execute interpret list stack := by
  have silent := folds.operand?_operator immediate
  -- The operands push their values; what the operator makes of them is the value of the tree.
  cases folds with
  | @unary node operand value result operator given fits load =>
      have operate : op.operate? = some node.apply := by
        simp [Opcode.operate?, BinaryNode.ofOpcode?_of_unary operator, operator]
      have window : runAll interpret list ([operand] ++ [leaf (.basic op immediate)]) stack =
          node.apply (value.entry :: stack) := by
        simp [runAll, execute_operand interpret given, execute_operator interpret silent operate]
      rw [window]
      by_cases doubled : node = .dup
      · subst doubled
        simp [UnaryNode.apply, execute, given]
      · have whole : (unary node operand).operand? list = some result := by
          cases node <;> simp_all [operand?]
        rw [UnaryNode.apply_entry doubled fits, execute_operand interpret whole]
  | @binary node left right leftValue rightValue result operator leftGiven rightGiven calm fits =>
      have operate : op.operate? = some node.apply := by
        simp [Opcode.operate?, operator]
      have window : runAll interpret list ([left, right] ++ [leaf (.basic op immediate)]) stack =
          node.apply (rightValue.entry :: leftValue.entry :: stack) := by
        simp [runAll, execute_operand interpret leftGiven, execute_operand interpret rightGiven,
          execute_operator interpret silent operate]
      have whole : (binary node left right).operand? list = some result := by
        simp [operand?, leftGiven, rightGiven, fits]
      rw [window, BinaryNode.apply_entry fits, execute_operand interpret whole]

theorem runAll_step {list : Listing} {forest folded : List ExprTree}
    (step : Step list forest folded) (stack : SymbolicStack) :
    runAll interpret list folded stack = runAll interpret list forest stack := by
  obtain ⟨before, after, immediate, folds⟩ := step
  rw [List.append_assoc, List.append_cons _ (leaf _), runAll_append, runAll_append]
  apply Option.bind_congr
  intro reached _
  rw [runAll_cons, runAll_append, runAll_window interpret folds]

theorem runAll_steps {list : Listing} {count : Nat} {forest last : List ExprTree}
    (steps : Steps list count forest last) (stack : SymbolicStack) :
    runAll interpret list last stack = runAll interpret list forest stack := by
  induction steps with
  | done forest => rfl
  | step first rest ih => exact ih.trans (runAll_step interpret first stack)

end ExprTree

namespace Listing

variable (interpret : Instr → SymbolicStack → Option SymbolicStack)

theorem Denotes.execute {list : Listing} (descending : list.Descending) {id : NodeId}
    {tree : ExprTree} (denotes : list.Denotes id tree) {instr : Instr}
    (found : list.node? id = some instr) (stack : SymbolicStack) :
    list.execute interpret instr stack = tree.execute interpret list stack := by
  cases denotes with
  | @leaf _ leaf known elementary =>
      obtain rfl := Option.some.inj (known.symm.trans found)
      cases leaf <;> first | rfl | simp [Instr.operands] at elementary
  | @unary _ node operand tree known inner =>
      obtain rfl := Option.some.inj (known.symm.trans found)
      have rendered := (Denotes.unary known inner).render descending known (by simp)
      cases node <;> exact congrArg (Option.map _) rendered
  | @binary _ node left right leftTree rightTree known first second =>
      obtain rfl := Option.some.inj (known.symm.trans found)
      have rendered := (Denotes.binary known first second).render descending known (by simp)
      cases node <;> exact congrArg (Option.map _) rendered

theorem Represents.run {list : Listing} {forest : List ExprTree}
    (represents : list.Represents forest) (stack : SymbolicStack) :
    list.run interpret stack = ExprTree.runAll interpret list forest stack := by
  obtain ⟨descending, trees⟩ := represents
  unfold StandsFor at trees
  unfold Listing.run instrs
  generalize list.order = order at trees
  induction trees generalizing stack with
  | nil => rfl
  | @cons id tree rest forest denotes _ ih =>
      obtain ⟨instr, found⟩ := denotes.found
      simp only [List.filterMap_cons, found, List.foldlM_cons,
        denotes.execute interpret descending found, ExprTree.runAll_cons]
      apply Option.bind_congr
      intro reached _
      exact ih reached

end Listing

/-- Folding an assembled listing changes nothing about the stack it leaves, whatever stack it starts
with and whatever the instructions that do not fold do. -/
theorem run_fold {method : MethodDecl} {unit after : UnitState} {list : Listing}
    (assembled : method.assemble unit = (.ok list, after))
    (interpret : Instr → SymbolicStack → Option SymbolicStack) (stack : SymbolicStack) :
    list.fold.1.run interpret stack = list.run interpret stack := by
  have represents := (MethodDecl.elementary_assemble assembled).represents
  obtain ⟨forest, steps, foldRepresents, same⟩ := represents.foldRun list.fold_run
  calc list.fold.1.run interpret stack
      = ExprTree.runAll interpret list.fold.1 forest stack := foldRepresents.run interpret stack
    _ = ExprTree.runAll interpret list forest stack :=
        ExprTree.runAll_of_names interpret same forest stack
    _ = ExprTree.runAll interpret list (list.instrs.map .leaf) stack :=
        ExprTree.runAll_steps interpret steps stack
    _ = list.run interpret stack := (represents.run interpret stack).symm

theorem run_fold_sample :
    Sample.method.assemble .empty = (.ok Sample.listing, .empty) ∧
    Sample.listing.fold.1.run (fun _ stack => some stack) [(.int, "below")] =
      some [(.int, "(JAVA_IDIV(CHECKED_ARRAY_LENGTH(olocals_0_), ilocals_1_) + " ++
        "ELEMENT_ACCESS_INT(olocals_0_, ilocals_1_))"), (.int, "below")] :=
  ⟨by decide, (run_fold (by decide : Sample.method.assemble .empty = (.ok Sample.listing, .empty))
    _ _).trans (by decide)⟩

end BytecodeToC
