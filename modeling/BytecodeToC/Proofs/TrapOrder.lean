import BytecodeToC.Proofs.Arena

/-!
Exceptions keep their order. Integral divisions, array loads and array lengths may raise an
exception; a folded expression performs those of its window in the order in which they stood in the
listing, whichever operand C evaluates first, because at most one operand of a node has any.
-/

namespace BytecodeToC

def Opcode.mayTrap (op : Opcode) : Bool :=
  op ∈ [⟨0x6c⟩, ⟨0x6d⟩, ⟨0x70⟩, ⟨0x71⟩, .arraylength] || op.isArrayLoad

def Opcode.trapAt (op : Opcode) (pos : Nat) : List (Nat × Opcode) :=
  if op.mayTrap then [(pos, op)] else []

def Instr.mayTrap : Instr → Bool
  | .basic op _ => op.mayTrap
  | _ => false

def Instr.trapAt : Instr → Nat → List (Nat × Opcode)
  | .basic op _, pos => op.trapAt pos
  | _, _ => []

def trapsFrom : Nat → List Instr → List (Nat × Opcode)
  | _, [] => []
  | pos, instr :: rest => instr.trapAt pos ++ trapsFrom (pos + 1) rest

namespace ExprTree

def mayTrap : ExprTree → Bool
  | leaf instr => instr.mayTrap
  | unary node operand => operand.mayTrap || node.opcode.mayTrap
  | binary node left right => left.mayTrap || right.mayTrap || node.opcode.mayTrap

/-- What may raise an exception, in the order in which evaluating a tree performs it. The
instructions of the tree stand from `start` on, and an operator that stands at `pos` has its right
operand evaluated first if `rightFirst pos`. A `dup` evaluates its source twice. -/
def performs (rightFirst : Nat → Bool) : ExprTree → Nat → List (Nat × Opcode)
  | leaf instr, start => instr.trapAt start
  | unary .dup source, start => source.performs rightFirst start ++ source.performs rightFirst start
  | unary node operand, start =>
    operand.performs rightFirst start ++ node.opcode.trapAt (start + operand.code.length)
  | binary node left right, start =>
    let middle := start + left.code.length
    let pos := middle + right.code.length
    let first := left.performs rightFirst start
    let second := right.performs rightFirst middle
    (if rightFirst pos then second ++ first else first ++ second) ++ node.opcode.trapAt pos

end ExprTree

theorem trapsFrom_append (start : Nat) (first second : List Instr) :
    trapsFrom start (first ++ second) =
      trapsFrom start first ++ trapsFrom (start + first.length) second := by
  induction first generalizing start with
  | nil => simp [trapsFrom]
  | cons instr rest ih =>
      simp only [List.cons_append, trapsFrom, ih, List.append_assoc, List.length_cons]
      rw [show start + 1 + rest.length = start + (rest.length + 1) by omega]

theorem Instr.trapAt_plain (instr : Instr) (pos : Nat) : instr.plain.trapAt pos = instr.trapAt pos := by
  cases instr <;> rfl

theorem trapsFrom_map_plain (start : Nat) (instrs : List Instr) :
    trapsFrom start (instrs.map Instr.plain) = trapsFrom start instrs := by
  induction instrs generalizing start with
  | nil => rfl
  | cons instr rest ih => simp [trapsFrom, Instr.trapAt_plain, ih]

theorem Opcode.isOperator_of_mayTrap {op : Opcode} (traps : op.mayTrap = true) :
    op.isOperator = true := by
  by_cases load : op.isArrayLoad = true
  · simp only [isOperator, BinaryNode.ofOpcode?, load]
    split <;> rfl
  · simp only [mayTrap, load, Bool.or_false, decide_eq_true_eq, List.mem_cons, List.not_mem_nil,
      or_false] at traps
    rcases traps with rfl | rfl | rfl | rfl | rfl <;> rfl

theorem Opcode.mayTrap_of_binary {op : Opcode} {binary : BinaryOp}
    (found : op.binary? = some binary) : op.mayTrap = binary.dividesIntegers := by
  unfold binary? at found
  split at found
  all_goals first | (cases found; rfl) | simp at found

theorem Opcode.mayTrap_of_unary {op : Opcode} {unary : UnaryOp} (found : op.unary? = some unary) :
    op.mayTrap = false := by
  unfold unary? at found
  split at found
  all_goals first | rfl | simp at found

theorem UnaryNode.mayTrap_value? {node : UnaryNode} {value result : Value}
    (fits : node.value? value = some result) :
    result.effect = .mayTrap ↔ value.effect = .mayTrap ∨ node.opcode.mayTrap = true := by
  cases node with
  | arith op =>
      obtain ⟨unary, found, rfl⟩ := of_value?_arith fits
      simp [opcode, Opcode.mayTrap_of_unary found]
  | arrayLength =>
      obtain rfl := of_value?_arrayLength fits
      exact ⟨fun _ => .inr rfl, fun _ => rfl⟩
  | dup =>
      obtain rfl := Option.some.inj fits
      have quiet : Opcode.dup.mayTrap = false := rfl
      simp [opcode, quiet]

theorem Effect.join_eq_mayTrap_iff (first second : Effect) :
    first.join second = .mayTrap ↔ first = .mayTrap ∨ second = .mayTrap := by
  cases first <;> cases second <;> simp [join]

theorem BinaryNode.mayTrap_value? {op : Opcode} {node : BinaryNode} {left right result : Value}
    (operator : ofOpcode? op = some node) (fits : node.value? left right = some result) :
    result.effect = .mayTrap ↔
      (left.effect = .mayTrap ∨ right.effect = .mayTrap) ∨ node.opcode.mayTrap = true := by
  have same := opcode_of_ofOpcode? operator
  cases node with
  | arith code =>
      obtain ⟨binary, found, rfl⟩ := of_value?_arith fits
      rw [opcode, Opcode.mayTrap_of_binary found]
      cases binary.dividesIntegers <;> simp [Effect.join_eq_mayTrap_iff]
  | arrayLoad code =>
      obtain rfl : code = op := same
      have load : code.isArrayLoad = true := by
        by_contra other
        simp only [ofOpcode?, other] at operator
        split at operator <;> simp at operator
      obtain ⟨element, found, rfl⟩ := of_value?_arrayLoad fits
      simp [opcode, Opcode.mayTrap, load]

namespace ExprTree

theorem leaf_pure {list : Listing} {instr : Instr} {value : Value}
    (given : list.leafValue? instr = some value) :
    value.effect = .pure ∧ instr.mayTrap = false := by
  have quiet : value.effect = .pure := by
    simp only [Listing.leafValue?, Option.map_eq_some_iff] at given
    obtain ⟨⟨text, type⟩, -, rfl⟩ := given
    rfl
  refine ⟨quiet, ?_⟩
  cases instr with
  | basic op immediate =>
      by_contra traps
      have operator := Opcode.isOperator_of_mayTrap (Bool.not_eq_false _ ▸ traps)
      simp [list.leafValue?_operator operator] at given
  | _ => rfl

theorem Built.mayTrap_pushed? {list : Listing} {tree : ExprTree} (built : Built list tree)
    {value : Value} (pushed : tree.pushed? list = some value) :
    value.effect = .mayTrap ↔ tree.mayTrap = true := by
  induction built generalizing value with
  | leaf instr =>
      obtain ⟨quiet, calm⟩ := leaf_pure pushed
      simp [mayTrap, quiet, calm]
  | fold folds _ ih =>
      cases folds with
      | @unary node operand inner result operator given fits load =>
          rw [pushed?_unary, given, Option.bind_some] at pushed
          rw [UnaryNode.mayTrap_value? pushed, ih operand (by simp) (pushed?_of_operand? given)]
          simp [mayTrap]
      | @binary node left right leftValue rightValue result operator leftGiven rightGiven calm fits =>
          have made : node.value? leftValue rightValue = some value := by
            simpa [ExprTree.pushed?, operand?, leftGiven, rightGiven] using pushed
          rw [BinaryNode.mayTrap_value? operator made,
            ih left (by simp) (pushed?_of_operand? leftGiven),
            ih right (by simp) (pushed?_of_operand? rightGiven)]
          simp [mayTrap]

theorem performs_of_not_mayTrap (rightFirst : Nat → Bool) {tree : ExprTree}
    (quiet : tree.mayTrap = false) (start : Nat) : tree.performs rightFirst start = [] := by
  induction tree generalizing start with
  | leaf instr =>
      cases instr with
      | basic op immediate =>
          have none : op.mayTrap = false := quiet
          simp [performs, Instr.trapAt, Opcode.trapAt, none]
      | _ => rfl
  | unary node operand ih =>
      simp only [mayTrap, Bool.or_eq_false_iff] at quiet
      cases node <;> simp [performs, ih quiet.1, Opcode.trapAt, quiet.2]
  | binary node left right ihLeft ihRight =>
      simp only [mayTrap, Bool.or_eq_false_iff] at quiet
      simp [performs, ihLeft quiet.1.1, ihRight quiet.1.2, Opcode.trapAt, quiet.2]

theorem performs_unary (rightFirst : Nat → Bool) {node : UnaryNode} {operand : ExprTree}
    (calm : node = .dup → operand.mayTrap = false) (start : Nat) :
    (unary node operand).performs rightFirst start =
      operand.performs rightFirst start ++ node.opcode.trapAt (start + operand.code.length) := by
  cases node with
  | dup =>
      have none := performs_of_not_mayTrap rightFirst (calm rfl) start
      simp only [performs, none]
      rfl
  | arith op => rfl
  | arrayLength => rfl

theorem performs_binary (rightFirst : Nat → Bool) {left right : ExprTree}
    (calm : left.mayTrap = false ∨ right.mayTrap = false) (node : BinaryNode) (start : Nat) :
    (binary node left right).performs rightFirst start =
      left.performs rightFirst start ++ right.performs rightFirst (start + left.code.length) ++
        node.opcode.trapAt (start + left.code.length + right.code.length) := by
  rcases calm with quiet | quiet
  · simp [performs, performs_of_not_mayTrap rightFirst quiet]
  · simp [performs, performs_of_not_mayTrap rightFirst quiet]

theorem Built.performs_eq {list : Listing} {tree : ExprTree} (built : Built list tree)
    (rightFirst : Nat → Bool) (start : Nat) :
    tree.performs rightFirst start = trapsFrom start tree.code := by
  induction built generalizing start with
  | leaf instr => simp [performs, code, trapsFrom, Instr.trapAt_plain]
  | fold folds built ih =>
      cases folds with
      | @unary node operand value result operator given fits load =>
          have calm : node = .dup → operand.mayTrap = false := by
            intro doubled
            obtain ⟨source, rfl, _⟩ := load doubled
            exact (leaf_pure given).2
          rw [performs_unary rightFirst calm, ih operand (by simp), code, trapsFrom_append]
          simp [trapsFrom, Instr.trapAt]
      | @binary node left right leftValue rightValue result operator leftGiven rightGiven calm fits =>
          rw [(built left (by simp)).mayTrap_pushed? (pushed?_of_operand? leftGiven),
            (built right (by simp)).mayTrap_pushed? (pushed?_of_operand? rightGiven),
            not_and_or, Bool.not_eq_true, Bool.not_eq_true] at calm
          -- One operand performs nothing, so that the order of the two is of no account.
          rw [performs_binary rightFirst calm, ih left (by simp), ih right (by simp), code,
            trapsFrom_append, trapsFrom_append]
          simp [trapsFrom, Instr.trapAt, Nat.add_assoc]

end ExprTree

theorem trapsFrom_window {instrs : List Instr} {before rest : List ExprTree} {tree : ExprTree}
    (windows : (before ++ tree :: rest).flatMap ExprTree.code = instrs.map Instr.plain) {start : Nat}
    (offset : start = (before.flatMap ExprTree.code).length) :
    trapsFrom start ((instrs.drop start).take tree.code.length) = trapsFrom start tree.code := by
  have window : ((instrs.drop start).take tree.code.length).map Instr.plain = tree.code := by
    rw [List.map_take, List.map_drop, ← windows, offset]
    simp
  rw [← trapsFrom_map_plain, window]

/-- After folding, the order of a listing stands for trees over consecutive windows of the
instructions before. Every tree performs what may raise an exception as its window had it, in any
order of evaluating operands, and the effect of a node says exactly whether there is any. -/
theorem fold_preserves_trap_order {method : MethodDecl} {unit after : UnitState} {list : Listing}
    (assembled : method.assemble unit = (.ok list, after)) :
    (∃ forest, list.fold.1.StandsFor forest ∧
      forest.flatMap ExprTree.code = list.instrs.map Instr.plain ∧
      ∀ before tree rest, forest = before ++ tree :: rest →
        ∀ start, start = (before.flatMap ExprTree.code).length →
          ∀ rightFirst, tree.performs rightFirst start =
            trapsFrom start ((list.instrs.drop start).take tree.code.length)) ∧
    ∀ id instr, list.fold.1.node? id = some instr → instr.operands ≠ [] →
      ∃ tree value, list.fold.1.Denotes id tree ∧ list.fold.1.render instr = .ok value ∧
        (value.effect = .mayTrap ↔ tree.mayTrap = true) := by
  have elementary := MethodDecl.elementary_assemble assembled
  have sound := elementary.sound.foldRun list.fold_run
  obtain ⟨forest, steps, represents, names⟩ := elementary.represents.foldRun list.fold_run
  have windows : forest.flatMap ExprTree.code = list.instrs.map Instr.plain := by
    rw [steps.code_eq, List.flatMap_map, List.map_eq_flatMap]
    rfl
  refine ⟨⟨forest, represents.trees, windows, ?_⟩, ?_⟩
  · rintro before tree rest rfl start offset rightFirst
    obtain ⟨_, ids, _, _, placed⟩ := Listing.forall₂_append_right represents.trees
    obtain _ | ⟨denotes, _⟩ := placed
    rw [trapsFrom_window windows offset]
    exact (sound.built_of_denotes denotes).performs_eq rightFirst start
  · intro id instr found composite
    obtain ⟨tree, value, denotes, built, pushed, rendered⟩ := sound.render found composite
    exact ⟨tree, value, denotes, rendered, built.mayTrap_pushed? pushed⟩

theorem fold_preserves_trap_order_sample :
    Sample.method.assemble .empty = (.ok Sample.listing, .empty) ∧
    (∃ tree, Sample.listing.fold.1.Denotes 10 tree ∧
      tree.performs (fun _ => true) 0 = [(1, .arraylength), (3, ⟨0x6c⟩)]) ∧
    ∃ tree value, Sample.listing.fold.1.Denotes 10 tree ∧
      Sample.listing.fold.1.render (.arith ⟨0x6c⟩ 9 (some 2)) = .ok value ∧
      (value.effect = .mayTrap ↔ tree.mayTrap = true) := by
  have assembled : Sample.method.assemble .empty = (.ok Sample.listing, .empty) := by decide
  obtain ⟨⟨forest, stands, windows, order⟩, effects⟩ := fold_preserves_trap_order assembled
  obtain _ | @⟨_, tree, _, rest, denotes, _⟩ := stands
  refine ⟨assembled, ⟨tree, denotes, ?_⟩, effects 10 _ (by rfl) (by decide)⟩
  have quotient : Sample.listing.fold.1.Denotes 10 (.binary (.arith ⟨0x6c⟩)
      (.unary .arrayLength (.leaf (.localVar .aload 0 none))) (.leaf (.localVar .iload 1 none))) :=
    .binary (show Listing.node? _ 10 = some (BinaryNode.instr _ 9 2) from rfl)
      (.unary (show Listing.node? _ 9 = some (UnaryNode.instr _ 0) from rfl) (.leaf rfl rfl))
      (.leaf rfl rfl)
  obtain rfl := denotes.unique quotient
  exact (order [] _ rest rfl 0 rfl _).trans (by decide)

end BytecodeToC
