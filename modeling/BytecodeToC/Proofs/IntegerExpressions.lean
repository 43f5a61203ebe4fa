import BytecodeToC.Proofs.Arena
import BytecodeToC.Proofs.IntegerOperators
import BytecodeToC.Proofs.LocalNames

/-!
What integer expressions are worth. The machine runs the instructions that a tree was folded from; the
text of the tree, read as C, is evaluated over variables that hold the same locals. Both give the same
number, or both stop at a division by zero.
-/

namespace BytecodeToC

open C Machine

/-! Literals and local variables -/

namespace C

/-- The text stands for an expression that is worth the word, whatever the variables hold. -/
def Spelled (text : String) (word : Word) : Prop :=
  ∃ expr, Writes text expr ∧ ∀ store, ∃ number, expr.eval store = .value number ∧ word.HeldBy number

theorem EndsIn.spelled {type : IntType} {ending : String} (ends : EndsIn type ending) {value : Int}
    (low : type.least < value) (high : value < -type.least) {word : Word}
    (held : word.HeldBy ⟨type, value⟩) : Spelled (toString value ++ ending) word :=
  ⟨_, ends.writes_literal low high, fun store => ⟨_, ends.eval_literal store low high, held⟩⟩

theorem spelled_least {type : IntType} {ending : String} (ends : EndsIn type ending) {word : Word}
    (held : word.HeldBy ⟨type, type.least⟩) :
    Spelled (BinaryOp.spaced (toString (type.least + 1) ++ ending) "-" (toString (1 : Int) ++ ""))
      word := by
  have bounds : type.least < type.least + 1 ∧ type.least + 1 < -type.least := by
    cases ends <;> decide
  have one : Writes (toString (1 : Int) ++ "") (.literal .int 1) :=
    EndsIn.int.writes_literal (by decide) (by decide)
  refine ⟨_, (ends.writes_literal bounds.1 bounds.2).binary .sub one, ?_⟩
  intro store
  have difference : Operator.sub.apply ⟨type, type.least + 1⟩ ⟨.int, 1⟩ = .value ⟨type, type.least⟩ := by
    cases ends <;> decide
  refine ⟨_, ?_, held⟩
  rw [Expr.eval, ends.eval_literal store bounds.1 bounds.2,
    EndsIn.int.eval_literal store (by decide) (by decide)]
  exact difference

theorem spelled_int (value : Int32) : Spelled (Literal.int value) (.int value.toBitVec) := by
  by_cases smallest : value = Int32.minValue
  · subst smallest
    exact spelled_least .int ⟨rfl, rfl⟩
  · have low := value.le_toInt
    have apart : value.toInt ≠ -2 ^ 31 := by
      rw [← Int32.toInt_minValue]
      exact mt Int32.toInt_inj.mp smallest
    have plain : Literal.int value = toString value.toInt ++ "" := by
      simp [Literal.int, smallest]
    rw [plain]
    refine EndsIn.int.spelled ?_ value.toInt_lt ⟨rfl, rfl⟩
    change -2 ^ 31 < value.toInt
    omega

theorem spelled_long (value : Int64) : Spelled (Literal.long value) (.long value.toBitVec) := by
  by_cases smallest : value = Int64.minValue
  · subst smallest
    exact spelled_least .long ⟨rfl, rfl⟩
  · have low := value.le_toInt
    have apart : value.toInt ≠ -2 ^ 63 := by
      rw [← Int64.toInt_minValue]
      exact mt Int64.toInt_inj.mp smallest
    have plain : Literal.long value = toString value.toInt ++ "LL" := by
      simp [Literal.long, smallest]
    rw [plain]
    refine EndsIn.long.spelled ?_ value.toInt_lt ⟨rfl, rfl⟩
    change -2 ^ 63 < value.toInt
    omega

theorem ofLexeme_generated (slot : Slot) (type : StackType) :
    Token.ofLexeme (LocalName.generated slot type).toList =
      .name (LocalName.generated slot type).toList := by
  have looks := LocalName.looksGenerated_generated slot type
  have types : IntType.all.find? (·.name.toList = (LocalName.generated slot type).toList) = none := by
    have plain : ∀ type ∈ IntType.all, LocalName.looksGenerated type.name.toList = false := by decide
    rw [List.find?_eq_none]
    intro other member same
    have generic := plain other member
    rw [of_decide_eq_true same, looks] at generic
    cases generic
  have words : LocalName.keywords.any (·.toList = (LocalName.generated slot type).toList) = false := by
    have plain : ∀ word ∈ LocalName.keywords, LocalName.looksGenerated word.toList = false := by decide
    rw [List.any_eq_false]
    intro word member same
    have generic := plain word member
    rw [of_decide_eq_true same, looks] at generic
    cases generic
  have initial : type.localLetter.isDigit = false ∧ LocalName.isWordChar type.localLetter = true := by
    cases type <;> decide
  rw [LocalName.toList_generated] at types words ⊢
  simp only [Token.ofLexeme, initial, Token.ofWord, types, words, Bool.false_eq_true, if_false, if_true]

theorem writes_generated (slot : Slot) (type : StackType) :
    Writes (LocalName.generated slot type) (.named (LocalName.generated slot type).toList) := by
  refine ⟨[.name (LocalName.generated slot type).toList], ?_, ?_⟩
  · rw [← ofLexeme_generated]
    apply spells_word
    · simp [LocalName.toList_generated]
    · have digits : (Nat.toDigits 10 slot.toNat).all LocalName.isWordChar = true := by
        rw [List.all_eq_true]
        intro digit member
        simp [LocalName.isWordChar, Char.isAlphanum, isDigit_toDigits member]
      rw [LocalName.toList_generated]
      cases type <;> simp [digits, LocalName.isWordChar, StackType.localLetter]
  · intro rest frames apart
    cases rest with
    | nil => rfl
    | cons token rest =>
        cases token with
        | opening => exact absurd rfl apart
        | _ => rfl

end C

/-! Trees -/

namespace Machine

structure Locals.HeldBy (locals : Locals) (store : List Char → Option Number) : Prop where
  int : ∀ slot, store (LocalName.generated slot .int).toList =
    some ⟨.int, (locals.int slot).toInt⟩
  long : ∀ slot, store (LocalName.generated slot .long).toList =
    some ⟨.long, (locals.long slot).toInt⟩

def Locals.store (locals : Locals) (name : List Char) : Option Number :=
  let slot : Slot := .ofNat (Nat.ofDigitChars 10 (name.drop 8).dropLast 0)
  match name.head? with
  | some 'i' => some ⟨.int, (locals.int slot).toInt⟩
  | some 'l' => some ⟨.long, (locals.long slot).toInt⟩
  | _ => none

theorem Locals.heldBy_store (locals : Locals) : locals.HeldBy locals.store := by
  constructor
  · intro slot
    simp [store, LocalName.toList_generated, StackType.localLetter]
  · intro slot
    simp [store, LocalName.toList_generated, StackType.localLetter]

/-- Wherever the code runs, it pushes the word that the expression is worth, or both stop. -/
def Computes (locals : Locals) (store : List Char → Option Number) (code : List Instr)
    (type : StackType) (expr : Expr) : Prop :=
  ∃ result, (∀ stack, run locals code stack = result.map (· :: stack)) ∧
    Agrees type result (expr.eval store)

theorem run_append (locals : Locals) (first second : List Instr) (stack : List Word) :
    run locals (first ++ second) stack = (run locals first stack).bind (run locals second) := by
  simp only [run, List.foldlM_append]
  rfl

theorem run_singleton (locals : Locals) (instr : Instr) (stack : List Word) :
    run locals [instr] stack = step locals stack instr := by
  simp [run]

variable {locals : Locals} {store : List Char → Option Number}

theorem Computes.unary {code : List Instr} {unary : UnaryOp} {inner whole : Expr} {instr : Instr}
    {compute : Word → Except Fault Word}
    (computes : Computes locals store code unary.operandType inner)
    (steps : ∀ stack, step locals stack instr = (Operation.unary compute).perform stack)
    (agrees : ∀ x, Agrees unary.operandType x (inner.eval store) →
      Agrees unary.resultType (x.bind compute) (whole.eval store)) :
    Computes locals store (code ++ [instr]) unary.resultType whole := by
  obtain ⟨result, runs, same⟩ := computes
  refine ⟨result.bind compute, ?_, agrees result same⟩
  intro stack
  rw [run_append, runs]
  cases result with
  | error fault => rfl
  | ok word =>
      change run locals [instr] (word :: stack) = _
      rw [run_singleton, steps]
      rfl

theorem Computes.binary {left right : List Instr} {binary : BinaryOp} {first second whole : Expr}
    {instr : Instr} {compute : Word → Word → Except Fault Word}
    (leftComputes : Computes locals store left binary.operandTypes.1 first)
    (rightComputes : Computes locals store right binary.operandTypes.2 second)
    (steps : ∀ stack, step locals stack instr = (Operation.binary compute).perform stack)
    (agrees : ∀ x y, Agrees binary.operandTypes.1 x (first.eval store) →
      Agrees binary.operandTypes.2 y (second.eval store) →
      Agrees binary.resultType (x.bind fun a => y.bind (compute a)) (whole.eval store)) :
    Computes locals store (left ++ right ++ [instr]) binary.resultType whole := by
  obtain ⟨x, leftRuns, leftSame⟩ := leftComputes
  obtain ⟨y, rightRuns, rightSame⟩ := rightComputes
  refine ⟨x.bind fun a => y.bind (compute a), ?_, agrees x y leftSame rightSame⟩
  intro stack
  rw [run_append, run_append, leftRuns]
  cases x with
  | error fault => rfl
  | ok first =>
      change ((run locals right (first :: stack)).bind (run locals [instr])) = _
      rw [rightRuns]
      cases y with
      | error fault => rfl
      | ok second =>
          change run locals [instr] (second :: first :: stack) = _
          rw [run_singleton, steps]
          rfl

end Machine

def Listing.isIntegral (list : Listing) : Instr → Bool
  | .basic op immediate =>
    [.iconstM1, .iconst0, .iconst1, .iconst2, .iconst3, .iconst4, .iconst5, .lconst0,
      .lconst1].contains op || [.bipush, .sipush].contains op && immediate.isSome
  | .constant (.int _) _ | .constant (.long _) _ => true
  | .localVar op slot _ | .namedLocal op slot _ _ _ =>
    op = .iload && (list.boundName? slot .int).isNone ||
      op = .lload && (list.boundName? slot .long).isNone
  | _ => false

namespace ExprTree

def isIntegral (list : Listing) : ExprTree → Bool
  | leaf instr => list.isIntegral instr
  | unary (.arith op) operand =>
    Opcode.integralOperators.contains op.mnemonic && operand.isIntegral list
  | binary (.arith op) left right =>
    Opcode.integralOperators.contains op.mnemonic && left.isIntegral list && right.isIntegral list
  | _ => false

/-- The text stands for an expression that is worth what the code computes. -/
def Worth (code : List Instr) (value : Value) : Prop :=
  ∃ expr, Writes value.text expr ∧
    ∀ locals store, locals.HeldBy store → Computes locals store code value.type expr

theorem worth_of_spelled {instr : Instr} {value : Value} {word : Word}
    (kind : word.stackType = value.type) (spelled : Spelled value.text word)
    (steps : ∀ locals stack, step locals stack instr = .ok (word :: stack)) :
    Worth [instr] value := by
  obtain ⟨expr, writes, worth⟩ := spelled
  refine ⟨expr, writes, ?_⟩
  intro locals store _
  obtain ⟨number, evaluates, held⟩ := worth store
  refine ⟨.ok word, ?_, ?_⟩
  · intro stack
    rw [run_singleton, steps]
    rfl
  · rw [evaluates]
    exact .value kind held

theorem worth_generated {instr : Instr} {slot : Slot} {type : StackType} {load : Locals → Word}
    (steps : ∀ locals stack, step locals stack instr = .ok (load locals :: stack))
    (held : ∀ locals store, locals.HeldBy store → ∃ number,
      store (LocalName.generated slot type).toList = some number ∧
        (load locals).stackType = type ∧ (load locals).HeldBy number) (effect : Effect) :
    Worth [instr] { text := LocalName.generated slot type, type, effect } := by
  refine ⟨_, writes_generated slot type, ?_⟩
  intro locals store holds
  obtain ⟨number, found, kind, same⟩ := held locals store holds
  refine ⟨.ok (load locals), ?_, ?_⟩
  · intro stack
    rw [run_singleton, steps]
    rfl
  · rw [Expr.eval, found]
    exact .value kind same

theorem worth_load {list : Listing} {op : Opcode} {slot : Slot} {instr : Instr}
    (reads : list.leafValue? instr =
      (list.localValue? op slot).map fun (text, type) => { text, type, effect := .pure })
    (integral : op = .iload ∧ list.boundName? slot .int = none ∨
      op = .lload ∧ list.boundName? slot .long = none)
    (ints : op = .iload → ∀ locals stack,
      step locals stack instr = .ok (.int (locals.int slot) :: stack))
    (longs : op = .lload → ∀ locals stack,
      step locals stack instr = .ok (.long (locals.long slot) :: stack)) :
    ∃ value, list.leafValue? instr = some value ∧ Worth [instr] value := by
  rw [reads]
  rcases integral with ⟨rfl, unnamed⟩ | ⟨rfl, unnamed⟩
  · refine ⟨⟨list.localName slot .int, .int, .pure⟩, rfl, ?_⟩
    rw [Listing.localName, unnamed]
    apply worth_generated (ints rfl)
    intro locals store holds
    exact ⟨_, holds.int slot, rfl, rfl, rfl⟩
  · refine ⟨⟨list.localName slot .long, .long, .pure⟩, rfl, ?_⟩
    rw [Listing.localName, unnamed]
    apply worth_generated (longs rfl)
    intro locals store holds
    exact ⟨_, holds.long slot, rfl, rfl, rfl⟩

theorem worth_basic {list : Listing} {op : Opcode} {immediate : Option Int32}
    (integral : list.isIntegral (.basic op immediate) = true) :
    ∃ value, list.leafValue? (.basic op immediate) = some value ∧
      Worth [(Instr.basic op immediate).plain] value := by
  simp only [Listing.isIntegral, Bool.or_eq_true, Bool.and_eq_true, List.contains_iff_mem,
    List.mem_cons, List.not_mem_nil, or_false] at integral
  rcases integral with
    (rfl | rfl | rfl | rfl | rfl | rfl | rfl | rfl | rfl) | ⟨rfl | rfl, present⟩
  · exact ⟨_, rfl, worth_of_spelled rfl (spelled_int (-1)) fun _ _ => rfl⟩
  · exact ⟨_, rfl, worth_of_spelled rfl (spelled_int 0) fun _ _ => rfl⟩
  · exact ⟨_, rfl, worth_of_spelled rfl (spelled_int 1) fun _ _ => rfl⟩
  · exact ⟨_, rfl, worth_of_spelled rfl (spelled_int 2) fun _ _ => rfl⟩
  · exact ⟨_, rfl, worth_of_spelled rfl (spelled_int 3) fun _ _ => rfl⟩
  · exact ⟨_, rfl, worth_of_spelled rfl (spelled_int 4) fun _ _ => rfl⟩
  · exact ⟨_, rfl, worth_of_spelled rfl (spelled_int 5) fun _ _ => rfl⟩
  · exact ⟨_, rfl, worth_of_spelled rfl (spelled_long 0) fun _ _ => rfl⟩
  · exact ⟨_, rfl, worth_of_spelled rfl (spelled_long 1) fun _ _ => rfl⟩
  all_goals
    obtain ⟨number, rfl⟩ := Option.isSome_iff_exists.mp present
    exact ⟨_, rfl, worth_of_spelled rfl (spelled_int number) fun _ _ => rfl⟩

theorem worth_leaf {list : Listing} {instr : Instr} (integral : list.isIntegral instr = true) :
    ∃ value, list.leafValue? instr = some value ∧ Worth [instr.plain] value := by
  cases instr with
  | basic op immediate => exact worth_basic integral
  | constant constant offset =>
      cases constant with
      | int number => exact ⟨_, rfl, worth_of_spelled rfl (spelled_int number) fun _ _ => rfl⟩
      | long number => exact ⟨_, rfl, worth_of_spelled rfl (spelled_long number) fun _ _ => rfl⟩
      | _ => cases integral
  | localVar op slot delta =>
      refine worth_load rfl (by simpa [Listing.isIntegral] using integral) ?_ ?_
      · rintro rfl _ _
        rfl
      · rintro rfl _ _
        rfl
  | namedLocal op slot name tag delta =>
      refine worth_load rfl (by simpa [Listing.isIntegral] using integral) ?_ ?_
      · rintro rfl _ _
        rfl
      · rintro rfl _ _
        rfl
  | _ => cases integral

theorem Worth.unary {code : List Instr} {op : Opcode} {inner value : Value}
    (worth : Worth code inner) (fits : (UnaryNode.arith op).value? inner = some value)
    (integral : op.mnemonic ∈ Opcode.integralOperators) :
    Worth (code ++ [.basic op none]) value := by
  obtain ⟨expr, writes, computes⟩ := worth
  obtain ⟨unary, found, rfl⟩ := UnaryNode.of_value?_arith fits
  obtain ⟨ours, steps⟩ := Opcode.step_unary found integral
  obtain ⟨whole, spelled, agrees⟩ := UnaryOp.means_compute ours inner.text expr writes
  have type : inner.type = unary.operandType := by
    simp only [UnaryNode.value?, found, Option.bind_some] at fits
    by_contra other
    simp [other] at fits
  rw [type] at computes
  refine ⟨whole, spelled, ?_⟩
  intro locals store holds
  exact (computes locals store holds).unary (steps locals) (agrees store)

theorem Worth.binary {first second : List Instr} {op : Opcode} {left right value : Value}
    (leftWorth : Worth first left) (rightWorth : Worth second right)
    (fits : (BinaryNode.arith op).value? left right = some value)
    (integral : op.mnemonic ∈ Opcode.integralOperators) :
    Worth (first ++ second ++ [.basic op none]) value := by
  obtain ⟨one, leftWrites, leftComputes⟩ := leftWorth
  obtain ⟨other, rightWrites, rightComputes⟩ := rightWorth
  obtain ⟨binary, found, rfl⟩ := BinaryNode.of_value?_arith fits
  obtain ⟨ours, steps⟩ := Opcode.step_binary found integral
  obtain ⟨whole, spelled, agrees⟩ :=
    BinaryOp.means_compute ours left.text right.text one other leftWrites rightWrites
  have types : left.type = binary.operandTypes.1 ∧ right.type = binary.operandTypes.2 := by
    simp only [BinaryNode.value?, found, Option.bind_some] at fits
    by_contra other
    simp [other] at fits
  rw [types.1] at leftComputes
  rw [types.2] at rightComputes
  refine ⟨whole, spelled, ?_⟩
  intro locals store holds
  exact (leftComputes locals store holds).binary (rightComputes locals store holds) (steps locals)
    (agrees store)

theorem worth_operand {list : Listing} {tree : ExprTree} {value : Value}
    (given : tree.operand? list = some value) (integral : tree.isIntegral list = true) :
    Worth tree.code value := by
  -- The code of an operand runs on any stack, so that it may run on top of what came before it.
  induction tree generalizing value with
  | leaf instr =>
      obtain ⟨other, found, worth⟩ := worth_leaf integral
      obtain rfl := Option.some.inj (found.symm.trans given)
      exact worth
  | unary node operand ih =>
      cases node with
      | arith op =>
          simp only [isIntegral, Bool.and_eq_true, List.contains_iff_mem] at integral
          simp only [operand?, Option.bind_eq_some_iff] at given
          obtain ⟨inner, innerGiven, fits⟩ := given
          exact (ih innerGiven integral.2).unary fits integral.1
      | _ => cases integral
  | binary node left right ihLeft ihRight =>
      cases node with
      | arith op =>
          simp only [isIntegral, Bool.and_eq_true, List.contains_iff_mem] at integral
          simp only [operand?, Option.bind_eq_some_iff] at given
          obtain ⟨first, firstGiven, second, secondGiven, fits⟩ := given
          exact (ihLeft firstGiven integral.1.2).binary (ihRight secondGiven integral.2) fits
            integral.1.1
      | _ => cases integral

theorem exists_operand? {list : Listing} {tree : ExprTree} (built : Built list tree)
    (integral : tree.isIntegral list = true) : ∃ value, tree.operand? list = some value := by
  cases built with
  | leaf instr =>
      obtain ⟨value, given, _⟩ := worth_leaf integral
      exact ⟨value, given⟩
  | fold folds _ =>
      obtain ⟨value, pushed⟩ := folds.pushed?
      refine ⟨value, ?_⟩
      unfold pushed? at pushed
      split at pushed
      · cases integral
      · exact pushed

end ExprTree

theorem Listing.render_of_assignable? {list : Listing} {instr : Instr} {value : Value}
    (given : list.assignable? instr = some value) : list.render instr = .ok value := by
  cases instr with
  | arith _ _ _ => exact (Result.toOption_eq_some_iff ..).mp given
  | arrayLoad _ _ _ => exact (Result.toOption_eq_some_iff ..).mp given
  | arrayLength _ => exact (Result.toOption_eq_some_iff ..).mp given
  | dup _ => cases given
  | _ =>
      simp only [assignable?, operandValue?] at given
      simp only [render, renderWithin, valueOfNode, given]

/-- A node that stands for a tree of integral operators is rendered as a C text, and the text has a
reading as a C expression. Whatever the locals hold, the expression is worth the word that the code of the
tree pushes, unless the code divides by zero: exactly then the evaluation traps. -/
theorem integer_expressions_mean_code {method : MethodDecl} {unit after : UnitState}
    {list folded : Listing} {count : Nat} {id : NodeId} {tree : ExprTree}
    (assembled : method.assemble unit = (.ok list, after)) (run : Listing.FoldRun count list folded)
    (denotes : folded.Denotes id tree) (integral : tree.isIntegral folded = true) :
    ∃ instr value expr, folded.node? id = some instr ∧ folded.render instr = .ok value ∧
      Expr.ofText? value.text = some expr ∧
      ∀ locals store, locals.HeldBy store → ∀ stack,
        (∃ word number, Machine.run locals tree.code stack = .ok (word :: stack) ∧
          word.stackType = value.type ∧ expr.eval store = .value number ∧ word.HeldBy number) ∨
        (Machine.run locals tree.code stack = .error .divisionByZero ∧ expr.eval store = .trap) := by
  have sound := (MethodDecl.elementary_assemble assembled).sound.foldRun run
  obtain ⟨instr, found⟩ := denotes.found
  obtain ⟨value, given⟩ := ExprTree.exists_operand? (sound.built_of_denotes denotes) integral
  obtain ⟨expr, writes, computes⟩ := ExprTree.worth_operand given integral
  have assignable := (denotes.assignable? sound.descending found).trans given
  refine ⟨instr, value, expr, found, Listing.render_of_assignable? assignable, writes.ofText?, ?_⟩
  intro locals store holds stack
  obtain ⟨result, runs, agrees⟩ := computes locals store holds
  rw [runs stack]
  generalize expr.eval store = outcome at agrees
  cases agrees with
  | value kind held => exact .inl ⟨_, _, rfl, kind, rfl, held⟩
  | trap => exact .inr ⟨rfl, rfl⟩

namespace Sample

def mixing : MethodDecl :=
  { name := "mix", descriptor := "(IIJ)I", isStatic := true, maxStack := 4, maxLocals := 4
    code :=
      [.constant (.int Int32.minValue), .simple "iload_0" none, .simple "isub" none,
       .simple "iload_1" none, .simple "idiv" none, .simple "ineg" none, .simple "lload_2" none,
       .simple "iload_1" none, .simple "lushr" none, .simple "l2i" none, .simple "ixor" none,
       .simple "i2b" none, .simple "ireturn" none]
    tryCatch := [] }

def mixed : Listing :=
  { nodes := #[.constant (.int Int32.minValue) none, .localVar .iload 0 none, .basic ⟨0x64⟩ none,
      .localVar .iload 1 none, .basic ⟨0x6c⟩ none, .basic ⟨0x74⟩ none, .localVar .lload 2 none,
      .localVar .iload 1 none, .basic ⟨0x7d⟩ none, .basic ⟨0x88⟩ none, .basic ⟨0x82⟩ none,
      .basic ⟨0x91⟩ none, .basic .ireturn none]
    order := [0, 1, 2, 3, 4, 5, 6, 7, 8, 9, 10, 11, 12] }

def mixture : ExprTree :=
  .unary (.arith ⟨0x91⟩) <|
    .binary (.arith ⟨0x82⟩)
      (.unary (.arith ⟨0x74⟩) <|
        .binary (.arith ⟨0x6c⟩)
          (.binary (.arith ⟨0x64⟩) (.leaf (.constant (.int Int32.minValue) none))
            (.leaf (.localVar .iload 0 none)))
          (.leaf (.localVar .iload 1 none)))
      (.unary (.arith ⟨0x88⟩) <|
        .binary (.arith ⟨0x7d⟩) (.leaf (.localVar .lload 2 none)) (.leaf (.localVar .iload 1 none)))

theorem mixed_denotes : mixed.fold.1.Denotes 19 mixture :=
  .unary rfl <| .binary rfl
    (.unary rfl <| .binary rfl (.binary rfl (.leaf rfl rfl) (.leaf rfl rfl)) (.leaf rfl rfl))
    (.unary rfl <| .binary rfl (.leaf rfl rfl) (.leaf rfl rfl))

def mixingLocals (divisor : BitVec 32) : Locals :=
  { int := fun slot => if slot = 0 then 5 else divisor, long := fun _ => -1 }

end Sample

theorem integer_expressions_mean_code_sample :
    Sample.mixing.assemble .empty = (.ok Sample.mixed, .empty) ∧
    Sample.mixed.fold.1.order = [19, 12] ∧ Sample.mixed.fold.1.Denotes 19 Sample.mixture ∧
    Sample.mixture.isIntegral Sample.mixed.fold.1 = true ∧
    ∃ instr value expr, Sample.mixed.fold.1.node? 19 = some instr ∧
      Sample.mixed.fold.1.render instr = .ok value ∧ Expr.ofText? value.text = some expr ∧
      (∃ number, expr.eval (Sample.mixingLocals 3).store = .value number ∧ number.value = -88) ∧
      expr.eval (Sample.mixingLocals 0).store = .trap := by
  have assembled : Sample.mixing.assemble .empty = (.ok Sample.mixed, .empty) := by decide +kernel
  have integral : Sample.mixture.isIntegral Sample.mixed.fold.1 = true := by decide +kernel
  obtain ⟨instr, value, expr, found, rendered, reads, means⟩ :=
    integer_expressions_mean_code assembled Sample.mixed.fold_run Sample.mixed_denotes integral
  refine ⟨assembled, by decide +kernel, Sample.mixed_denotes, integral, instr, value, expr, found,
    rendered, reads, ?_, ?_⟩
  · have runs : run (Sample.mixingLocals 3) Sample.mixture.code [] = .ok [.int (-88)] := by
      decide +kernel
    rcases means _ _ (Locals.heldBy_store _) [] with ⟨word, number, pushed, _, worth, held⟩ | ⟨stops, _⟩
    · rw [runs] at pushed
      cases pushed
      exact ⟨number, worth, held.2⟩
    · rw [runs] at stops
      cases stops
  · have stops : run (Sample.mixingLocals 0) Sample.mixture.code [] = .error .divisionByZero := by
      decide +kernel
    rcases means _ _ (Locals.heldBy_store _) [] with ⟨word, number, pushed, _⟩ | ⟨_, traps⟩
    · rw [stops] at pushed
      cases pushed
    · exact traps

end BytecodeToC
