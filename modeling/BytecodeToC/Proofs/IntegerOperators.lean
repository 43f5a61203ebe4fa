import BytecodeToC.Proofs.CText

/-!
The integral operators, on a machine with a stack of words and in C. A word holds the bits of an int
or a long. For each operator, the C text over two operands, read as C and evaluated, is worth what the
machine computes from the words that the operands are worth, or both stop at a division by zero.
-/

namespace BytecodeToC

/-! The machine -/

namespace Machine

inductive Word where
  | int (bits : BitVec 32)
  | long (bits : BitVec 64)
deriving DecidableEq, Repr

inductive Fault where
  | divisionByZero
  | illTyped
deriving DecidableEq, Repr

structure Locals where
  int : Slot → BitVec 32
  long : Slot → BitVec 64

inductive Operation where
  | unary (compute : Word → Except Fault Word)
  | binary (compute : Word → Word → Except Fault Word)

def Operation.perform : Operation → List Word → Except Fault (List Word)
  | unary compute, x :: rest => (compute x).map (· :: rest)
  | binary compute, y :: x :: rest => (compute x y).map (· :: rest)
  | _, _ => .error .illTyped

def onInt (compute : BitVec 32 → Word) : Word → Except Fault Word
  | .int x => .ok (compute x)
  | .long _ => .error .illTyped

def onLong (compute : BitVec 64 → Word) : Word → Except Fault Word
  | .long x => .ok (compute x)
  | .int _ => .error .illTyped

def same (kind : Integral)
    (compute : {width : Nat} → BitVec width → BitVec width → Except Fault (BitVec width))
    (x y : Word) : Except Fault Word :=
  match kind, x, y with
  | .int, .int x, .int y => (compute x y).map .int
  | .long, .long x, .long y => (compute x y).map .long
  | _, _, _ => .error .illTyped

/-- A shift by as many of the low bits of an int as the word has use for. -/
def shift (kind : Integral) (compute : {width : Nat} → BitVec width → Nat → BitVec width)
    (x y : Word) : Except Fault Word :=
  match kind, x, y with
  | .int, .int x, .int y => .ok (.int (compute x (y.toNat % 32)))
  | .long, .long x, .int y => .ok (.long (compute x (y.toNat % 64)))
  | _, _, _ => .error .illTyped

def quotient {width : Nat} (x y : BitVec width) : Except Fault (BitVec width) :=
  if y = 0 then .error .divisionByZero else .ok (x.sdiv y)

def remainder {width : Nat} (x y : BitVec width) : Except Fault (BitVec width) :=
  if y = 0 then .error .divisionByZero else .ok (x.srem y)

/-- The integral operators. Arithmetic wraps around; a right shift extends the sign unless it is an
unsigned one, and a narrowed int is a full int again. -/
def operation? (op : Opcode) : Option Operation :=
  match op with
  | ⟨0x60⟩ => some (.binary <| same .int fun x y => .ok (x + y))
  | ⟨0x61⟩ => some (.binary <| same .long fun x y => .ok (x + y))
  | ⟨0x64⟩ => some (.binary <| same .int fun x y => .ok (x - y))
  | ⟨0x65⟩ => some (.binary <| same .long fun x y => .ok (x - y))
  | ⟨0x68⟩ => some (.binary <| same .int fun x y => .ok (x * y))
  | ⟨0x69⟩ => some (.binary <| same .long fun x y => .ok (x * y))
  | ⟨0x6c⟩ => some (.binary <| same .int quotient)
  | ⟨0x6d⟩ => some (.binary <| same .long quotient)
  | ⟨0x70⟩ => some (.binary <| same .int remainder)
  | ⟨0x71⟩ => some (.binary <| same .long remainder)
  | ⟨0x74⟩ => some (.unary <| onInt fun x => .int (-x))
  | ⟨0x75⟩ => some (.unary <| onLong fun x => .long (-x))
  | ⟨0x78⟩ => some (.binary <| shift .int fun x count => x <<< count)
  | ⟨0x79⟩ => some (.binary <| shift .long fun x count => x <<< count)
  | ⟨0x7a⟩ => some (.binary <| shift .int fun x count => x.sshiftRight count)
  | ⟨0x7b⟩ => some (.binary <| shift .long fun x count => x.sshiftRight count)
  | ⟨0x7c⟩ => some (.binary <| shift .int fun x count => x >>> count)
  | ⟨0x7d⟩ => some (.binary <| shift .long fun x count => x >>> count)
  | ⟨0x7e⟩ => some (.binary <| same .int fun x y => .ok (x &&& y))
  | ⟨0x7f⟩ => some (.binary <| same .long fun x y => .ok (x &&& y))
  | ⟨0x80⟩ => some (.binary <| same .int fun x y => .ok (x ||| y))
  | ⟨0x81⟩ => some (.binary <| same .long fun x y => .ok (x ||| y))
  | ⟨0x82⟩ => some (.binary <| same .int fun x y => .ok (x ^^^ y))
  | ⟨0x83⟩ => some (.binary <| same .long fun x y => .ok (x ^^^ y))
  | ⟨0x85⟩ => some (.unary <| onInt fun x => .long (x.signExtend 64))
  | ⟨0x88⟩ => some (.unary <| onLong fun x => .int (x.setWidth 32))
  | ⟨0x91⟩ => some (.unary <| onInt fun x => .int ((x.setWidth 8).signExtend 32))
  | ⟨0x92⟩ => some (.unary <| onInt fun x => .int ((x.setWidth 16).setWidth 32))
  | ⟨0x93⟩ => some (.unary <| onInt fun x => .int ((x.setWidth 16).signExtend 32))
  | _ => none

def constant? (op : Opcode) (immediate : Option Int32) : Option Word :=
  match op with
  | .iconstM1 => some (.int (-1))
  | .iconst0 => some (.int 0)
  | .iconst1 => some (.int 1)
  | .iconst2 => some (.int 2)
  | .iconst3 => some (.int 3)
  | .iconst4 => some (.int 4)
  | .iconst5 => some (.int 5)
  | .lconst0 => some (.long 0)
  | .lconst1 => some (.long 1)
  | .bipush | .sipush => immediate.map fun value => .int value.toBitVec
  | _ => none

def step (locals : Locals) (stack : List Word) (instr : Instr) : Except Fault (List Word) :=
  match instr with
  | .basic op immediate =>
    match constant? op immediate with
    | some word => .ok (word :: stack)
    | none => match operation? op with
      | some operation => operation.perform stack
      | none => .error .illTyped
  | .localVar .iload slot _ | .namedLocal .iload slot _ _ _ => .ok (.int (locals.int slot) :: stack)
  | .localVar .lload slot _ | .namedLocal .lload slot _ _ _ => .ok (.long (locals.long slot) :: stack)
  | .constant (.int value) _ => .ok (.int value.toBitVec :: stack)
  | .constant (.long value) _ => .ok (.long value.toBitVec :: stack)
  | _ => .error .illTyped

def run (locals : Locals) (code : List Instr) (stack : List Word) : Except Fault (List Word) :=
  code.foldlM (step locals) stack

end Machine

/-! Where the machine and C agree -/

def C.IntType.ofKind : Integral → IntType
  | .int => .int
  | .long => .long

def C.IntType.unsignedOf : Integral → IntType
  | .int => .uint
  | .long => .ulong

def C.shiftMask : Integral → Number
  | .int => ⟨.int, 31⟩
  | .long => ⟨.int, 63⟩

theorem C.IntType.isSigned_ofKind (kind : Integral) : (ofKind kind).isSigned = true := by
  cases kind <;> rfl

namespace Machine

open C

def Word.stackType : Word → StackType
  | int _ => .int
  | long _ => .long

/-- The C number is that of the word, in a type that is promoted to the type of the word. -/
def Word.HeldBy (word : Word) (number : Number) : Prop :=
  match word with
  | int x => number.Has .int x
  | long x => number.Has .long x

inductive Agrees (type : StackType) : Except Fault Word → Outcome → Prop
  | value {word number} (kind : word.stackType = type) (held : word.HeldBy number) :
      Agrees type (.ok word) (.value number)
  | trap : Agrees type (.error .divisionByZero) .trap

theorem Agrees.int {x : BitVec 32} {number : Number} (has : number.Has .int x) :
    Agrees .int (.ok (.int x)) (.value number) :=
  .value rfl has

theorem Agrees.long {x : BitVec 64} {number : Number} (has : number.Has .long x) :
    Agrees .long (.ok (.long x)) (.value number) :=
  .value rfl has

theorem Agrees.map {type target : StackType} {result : Except Fault Word} {outcome : Outcome}
    (agrees : Agrees type result outcome) {compute : Word → Except Fault Word}
    {change : Number → Number}
    (single : ∀ word number, word.stackType = type → word.HeldBy number →
      Agrees target (compute word) (.value (change number))) :
    Agrees target (result.bind compute) (outcome.map change) := by
  cases agrees with
  | value kind held => exact single _ _ kind held
  | trap => exact .trap

theorem Agrees.both {left right target : StackType} {first second : Except Fault Word}
    {one other : Outcome} (leftAgrees : Agrees left first one) (rightAgrees : Agrees right second other)
    {compute : Word → Word → Except Fault Word} {combine : Number → Number → Outcome}
    (single : ∀ x y m n, x.stackType = left → y.stackType = right → x.HeldBy m → y.HeldBy n →
      Agrees target (compute x y) (combine m n)) :
    Agrees target (first.bind fun x => second.bind (compute x)) (one.both other combine) := by
  cases leftAgrees with
  | value kind held =>
      cases rightAgrees with
      | value otherKind otherHeld => exact single _ _ _ _ kind otherKind held otherHeld
      | trap => exact .trap
  | trap =>
      cases rightAgrees with
      | value => exact .trap
      | trap => exact .trap

end Machine

/-! Operators -/

theorem opening_opening : "((" = "(" ++ "(" := rfl

theorem closing_opening : ")(" = ")" ++ "(" := rfl

theorem closing_closing : "))" = ")" ++ ")" := rfl

/-- A binary operator is written as an expression that is worth what the machine computes. -/
def BinaryOp.Means (binary : BinaryOp) (compute : Machine.Word → Machine.Word →
    Except Machine.Fault Machine.Word) : Prop :=
  ∀ left right first second, C.Writes left first → C.Writes right second →
    ∃ whole, C.Writes (binary.text left right) whole ∧ ∀ store x y,
      Machine.Agrees binary.operandTypes.1 x (first.eval store) →
      Machine.Agrees binary.operandTypes.2 y (second.eval store) →
      Machine.Agrees binary.resultType (x.bind fun a => y.bind (compute a)) (whole.eval store)

namespace Machine

open C

def Yields (type : IntType) (result : Except Fault (BitVec type.bits)) (outcome : Outcome) : Prop :=
  result = .error .divisionByZero ∧ outcome = .trap ∨
    ∃ z number, result = .ok z ∧ outcome = .value number ∧ number.Has type z

theorem Yields.agrees {type : IntType} {result : Except Fault (BitVec type.bits)} {outcome : Outcome}
    (yields : Yields type result outcome) {kind : StackType} {word : BitVec type.bits → Word}
    (held : ∀ z number, number.Has type z → Agrees kind (.ok (word z)) (.value number)) :
    Agrees kind (result.map word) outcome := by
  rcases yields with ⟨rfl, rfl⟩ | ⟨z, number, rfl, rfl, has⟩
  · exact .trap
  · exact held z number has

theorem exists_int {word : Word} (kind : word.stackType = .int) : ∃ x, word = .int x := by
  cases word with
  | int x => exact ⟨x, rfl⟩
  | long x => cases kind

theorem exists_long {word : Word} (kind : word.stackType = .long) : ∃ x, word = .long x := by
  cases word with
  | int x => cases kind
  | long x => exact ⟨x, rfl⟩

theorem agrees_same (kind : Integral)
    {compute : {width : Nat} → BitVec width → BitVec width → Except Fault (BitVec width)}
    {combine : Number → Number → Outcome}
    (single : ∀ (m n : Number) (x y : BitVec (IntType.ofKind kind).bits),
      m.Has (.ofKind kind) x → n.Has (.ofKind kind) y →
        Yields (.ofKind kind) (compute x y) (combine m n))
    (x y : Word) (m n : Number) (first : x.stackType = kind.stackType)
    (second : y.stackType = kind.stackType) (xHeld : x.HeldBy m) (yHeld : y.HeldBy n) :
    Agrees kind.stackType (same kind compute x y) (combine m n) := by
  cases kind with
  | int =>
      obtain ⟨x, rfl⟩ := exists_int first
      obtain ⟨y, rfl⟩ := exists_int second
      exact (single m n x y xHeld yHeld).agrees fun _ _ => Agrees.int
  | long =>
      obtain ⟨x, rfl⟩ := exists_long first
      obtain ⟨y, rfl⟩ := exists_long second
      exact (single m n x y xHeld yHeld).agrees fun _ _ => Agrees.long

theorem agrees_shift (kind : Integral)
    {compute : {width : Nat} → BitVec width → Nat → BitVec width}
    {combine : Number → Number → Outcome}
    (single : ∀ (m n : Number) (x : BitVec (IntType.ofKind kind).bits) (count : Nat),
      m.Has (.ofKind kind) x → n.value = count → count < (IntType.ofKind kind).bits →
        ∃ number, combine m n = .value number ∧ number.Has (.ofKind kind) (compute x count))
    (x y : Word) (m n : Number) (first : x.stackType = kind.stackType)
    (second : y.stackType = .int) (xHeld : x.HeldBy m) (yHeld : y.HeldBy n) :
    Agrees kind.stackType (shift kind compute x y)
      (combine m (Operator.bitwise (· &&& ·) n (shiftMask kind))) := by
  obtain ⟨y, rfl⟩ := exists_int second
  cases kind with
  | int =>
      obtain ⟨x, rfl⟩ := exists_int first
      have count : (Operator.bitwise (· &&& ·) n (shiftMask .int)).value = (y.toNat % 32 : Nat) :=
        masked_value yHeld 5 (by decide)
      obtain ⟨number, worth, has⟩ := single m _ x _ xHeld count (Nat.mod_lt _ (by decide))
      rw [worth]
      exact .int has
  | long =>
      obtain ⟨x, rfl⟩ := exists_long first
      have count : (Operator.bitwise (· &&& ·) n (shiftMask .long)).value = (y.toNat % 64 : Nat) :=
        masked_value yHeld 6 (by decide)
      obtain ⟨number, worth, has⟩ := single m _ x _ xHeld count (Nat.mod_lt _ (by decide))
      rw [worth]
      exact .long has

end Machine

namespace BinaryOp

open C Machine

theorem means_operator {binary : BinaryOp} (kind : Integral) (op : Operator)
    {compute : {width : Nat} → BitVec width → BitVec width → BitVec width}
    (types : binary.operandTypes = (kind.stackType, kind.stackType))
    (spelling : ∀ left right, binary.text left right = spaced left op.text right)
    (computes : op.Computes compute) : binary.Means (same kind fun x y => .ok (compute x y)) := by
  intro left right first second firstWrites secondWrites
  refine ⟨.binary op first second, ?_, ?_⟩
  · rw [spelling]
    exact firstWrites.binary op secondWrites
  · intro store x y xAgrees yAgrees
    rw [types] at xAgrees yAgrees
    rw [resultType, types]
    refine xAgrees.both yAgrees (agrees_same kind ?_)
    intro m n x y xHas yHas
    obtain ⟨number, worth, has⟩ := computes _ m n x y (IntType.isSigned_ofKind kind) xHas yHas
    exact .inr ⟨_, number, rfl, worth, has⟩

def divisionName : Division → Integral → String
  | .quotient, .int => "JAVA_IDIV"
  | .quotient, .long => "JAVA_LDIV"
  | .remainder, .int => "JAVA_IREM"
  | .remainder, .long => "JAVA_LREM"

theorem spells_divisionName (division : Division) (kind : Integral) :
    Spells (divisionName division kind) [.name (divisionName division kind).toList] := by
  have token : Token.ofLexeme (divisionName division kind).toList =
      .name (divisionName division kind).toList := by
    cases division <;> cases kind <;> decide +kernel
  rw [← token]
  apply spells_word
  · cases division <;> cases kind <;> decide
  · cases division <;> cases kind <;> decide

theorem means_division {binary : BinaryOp} (kind : Integral) (division : Division)
    {compute : {width : Nat} → BitVec width → BitVec width → Except Fault (BitVec width)}
    (types : binary.operandTypes = (kind.stackType, kind.stackType))
    (spelling : ∀ left right, binary.text left right = applied (divisionName division kind) left right)
    (faults : ∀ {width : Nat} (x : BitVec width), compute x 0 = .error .divisionByZero)
    (divides : ∀ {width : Nat} (x y : BitVec width), y ≠ 0 →
      compute x y = .ok (division.onBits x y)) :
    binary.Means (same kind compute) := by
  have known : Division.ofName? (divisionName division kind).toList = some (division, .ofKind kind) := by
    cases division <;> cases kind <;> decide +kernel
  intro left right first second firstWrites secondWrites
  refine ⟨.call (divisionName division kind).toList first second, ?_, ?_⟩
  · rw [spelling]
    exact firstWrites.call (spells_divisionName division kind) secondWrites
  · intro store x y xAgrees yAgrees
    rw [types] at xAgrees yAgrees
    rw [resultType, types, Expr.eval, known]
    refine xAgrees.both yAgrees (agrees_same kind ?_)
    intro m n x y xHas yHas
    obtain ⟨zero, nonzero⟩ := division.apply_has (IntType.isSigned_ofKind kind) xHas yHas
    by_cases none : y = 0
    · exact .inl ⟨none ▸ faults x, zero none⟩
    · obtain ⟨number, worth, has⟩ := nonzero none
      exact .inr ⟨_, number, divides x y none, worth, has⟩

theorem writes_shiftMask (kind : Integral) : Writes kind.shiftMask (.number (shiftMask kind)) := by
  have token : Token.ofLexeme kind.shiftMask.toList = .number (shiftMask kind) := by
    cases kind <;> decide +kernel
  refine ⟨[.number (shiftMask kind)], ?_, fun rest frames _ => rfl⟩
  rw [← token]
  apply spells_word
  · cases kind <;> decide
  · cases kind <;> decide

theorem writes_count (kind : Integral) {text : String} {expr : Expr} (writes : Writes text expr) :
    Writes (spaced ("(" ++ text ++ ")") "&" kind.shiftMask)
      (.binary .and expr (.number (shiftMask kind))) :=
  writes.group.binary .and (writes_shiftMask kind)

theorem eval_count (kind : Integral) (expr : Expr) (store : List Char → Option Number) :
    (Expr.binary .and expr (.number (shiftMask kind))).eval store =
      (expr.eval store).map (Operator.bitwise (· &&& ·) · (shiftMask kind)) :=
  Outcome.both_value ..

theorem text_shiftRight (kind : Integral) (left right : String) :
    (BinaryOp.shift .right kind).text left right =
      spaced ("(" ++ left ++ ")") ">>" (spaced ("(" ++ right ++ ")") "&" kind.shiftMask) := by
  have middle : ") >> ((" = ")" ++ (" " ++ (">>" ++ (" " ++ ("(" ++ "(")))) := rfl
  have mask : ") & " = ")" ++ (" " ++ ("&" ++ " ")) := rfl
  change "((" ++ left ++ ") >> ((" ++ right ++ ") & " ++ kind.shiftMask ++ "))" = _
  simp only [spaced, opening_opening, middle, mask, closing_closing, String.append_assoc]

theorem means_shiftRight (kind : Integral) :
    (BinaryOp.shift .right kind).Means (Machine.shift kind fun x count => x.sshiftRight count) := by
  intro left right first second firstWrites secondWrites
  refine ⟨.binary .shiftRight first (.binary .and second (.number (shiftMask kind))), ?_, ?_⟩
  · have spelled := firstWrites.group.binary .shiftRight (writes_count kind secondWrites)
    rwa [text_shiftRight]
  · intro store x y xAgrees yAgrees
    rw [Expr.eval, eval_count, Outcome.both_map]
    refine xAgrees.both yAgrees (agrees_shift kind ?_)
    intro m n x count has known small
    exact shiftRight_has (IntType.isSigned_ofKind kind) has known small

theorem throughUnsigned_has (kind : Integral) {m n : Number} {x : BitVec (IntType.ofKind kind).bits}
    (has : m.Has (.ofKind kind) x) {count : Nat} (known : n.value = count)
    (small : count < (IntType.ofKind kind).bits) :
    (∃ number, (Operator.shiftLeft.apply (m.convert (.unsignedOf kind)) n).map
      (·.convert (.ofKind kind)) = .value number ∧ number.Has (.ofKind kind) (x <<< count)) ∧
    ∃ number, (Operator.shiftRight.apply (m.convert (.unsignedOf kind)) n).map
      (·.convert (.ofKind kind)) = .value number ∧ number.Has (.ofKind kind) (x >>> count) := by
  have bits : (IntType.unsignedOf kind).bits = (IntType.ofKind kind).bits := by cases kind <;> rfl
  have unsigned : (IntType.unsignedOf kind).isSigned = false := by cases kind <;> rfl
  have own : (IntType.unsignedOf kind).promoted = .unsignedOf kind := by cases kind <;> rfl
  obtain ⟨left, right⟩ := shifted_unsigned bits unsigned own x known small
  rw [has.convert_unsigned bits unsigned, left, right]
  have back := has_convert_toNat rfl (IntType.isSigned_ofKind kind) has.promoted (.unsignedOf kind)
  exact ⟨⟨_, rfl, back _⟩, ⟨_, rfl, back _⟩⟩

theorem throughUnsigned_eq (kind : Integral) (operator left right : String) :
    text.throughUnsigned left right kind operator =
      "(" ++ ("(" ++ (IntType.ofKind kind).name ++ ")" ++
        spaced ("(" ++ (IntType.unsignedOf kind).name ++ ")" ++ ("(" ++ left ++ ")")) operator
          (spaced ("(" ++ right ++ ")") "&" kind.shiftMask)) ++ ")" := by
  have type : kind.stackType.cType = (IntType.ofKind kind).name := by cases kind <;> rfl
  have unsigned : kind.unsignedType = (IntType.unsignedOf kind).name := by cases kind <;> rfl
  have front : ")((" = ")" ++ ("(" ++ "(") := rfl
  have behind : ") " = ")" ++ " " := rfl
  have count : " ((" = " " ++ ("(" ++ "(") := rfl
  have mask : ") & " = ")" ++ (" " ++ ("&" ++ " ")) := rfl
  have last : ")))" = ")" ++ (")" ++ ")") := rfl
  change "((" ++ kind.stackType.cType ++ ")((" ++ kind.unsignedType ++ ")(" ++ left ++ ") " ++
    operator ++ " ((" ++ right ++ ") & " ++ kind.shiftMask ++ ")))" = _
  simp only [spaced, type, unsigned, front, behind, count, mask, last, opening_opening,
    closing_opening, String.append_assoc]

theorem means_throughUnsigned (op : Shift) (kind : Integral) (operator : Operator)
    (compute : {width : Nat} → BitVec width → Nat → BitVec width)
    (spelling : ∀ left right, (BinaryOp.shift op kind).text left right =
      text.throughUnsigned left right kind operator.text)
    (single : ∀ (m n : Number) (x : BitVec (IntType.ofKind kind).bits) (count : Nat),
      m.Has (.ofKind kind) x → n.value = count → count < (IntType.ofKind kind).bits →
        ∃ number, (operator.apply (m.convert (.unsignedOf kind)) n).map (·.convert (.ofKind kind)) =
          .value number ∧ number.Has (.ofKind kind) (compute x count)) :
    (BinaryOp.shift op kind).Means (Machine.shift kind compute) := by
  intro left right first second firstWrites secondWrites
  refine ⟨.cast (.ofKind kind) (.binary operator (.cast (.unsignedOf kind) first)
    (.binary .and second (.number (shiftMask kind)))), ?_, ?_⟩
  · have inner := (firstWrites.group.cast (.unsignedOf kind)).binary operator
      (writes_count kind secondWrites)
    have spelled := (inner.cast (.ofKind kind)).group
    rwa [spelling, throughUnsigned_eq]
  · intro store x y xAgrees yAgrees
    -- Casts and mask are moved into what is done with the two operands.
    rw [Expr.eval, Expr.eval, Expr.eval, eval_count, Outcome.both_map, Outcome.map_both,
      Outcome.both_then]
    exact xAgrees.both yAgrees (agrees_shift kind single)

end BinaryOp

def UnaryOp.Means (unary : UnaryOp) (compute : Machine.Word → Except Machine.Fault Machine.Word) :
    Prop :=
  ∀ operand inner, C.Writes operand inner →
    ∃ whole, C.Writes (unary.text operand) whole ∧ ∀ store x,
      Machine.Agrees unary.operandType x (inner.eval store) →
      Machine.Agrees unary.resultType (x.bind compute) (whole.eval store)

namespace UnaryOp

open C Machine

theorem means_cast {unary : UnaryOp} (type : IntType)
    (spelling : ∀ operand, unary.text operand = cast type.name operand)
    {compute : Word → Except Fault Word}
    (single : ∀ word number, word.stackType = unary.operandType → word.HeldBy number →
      Agrees unary.resultType (compute word) (.value (number.convert type))) :
    unary.Means compute := by
  intro operand inner writes
  refine ⟨.cast type inner, ?_, ?_⟩
  · have spelled := (writes.group.cast type).group
    have same : cast type.name operand =
        "(" ++ ("(" ++ type.name ++ ")" ++ ("(" ++ operand ++ ")")) ++ ")" := by
      simp only [cast, opening_opening, closing_opening, closing_closing, String.append_assoc]
    rwa [spelling, same]
  · intro store x agrees
    exact agrees.map single

theorem means_negate {kind : Numeric} {compute : Word → Except Fault Word}
    (single : ∀ word number, word.stackType = kind.stackType → word.HeldBy number →
      Agrees kind.stackType (compute word) (.value (Expr.negated number))) :
    (UnaryOp.negate kind).Means compute := by
  intro operand inner writes
  refine ⟨.negate inner, ?_, ?_⟩
  · have spelled := writes.negate.group
    have same : (UnaryOp.negate kind).text operand = "(" ++ ("-(" ++ operand ++ ")") ++ ")" := by
      have front : "(-(" = "(" ++ "-(" := rfl
      change "(-(" ++ operand ++ "))" = _
      simp only [front, closing_closing, String.append_assoc]
    rwa [same]
  · intro store x agrees
    exact agrees.map single

end UnaryOp

/-! Opcodes -/

def Opcode.integralOperators : List String :=
  ["iadd", "ladd", "isub", "lsub", "imul", "lmul", "idiv", "ldiv", "irem", "lrem",
   "ishl", "lshl", "ishr", "lshr", "iushr", "lushr", "iand", "land", "ior", "lor", "ixor", "lxor",
   "ineg", "lneg", "i2l", "l2i", "i2b", "i2c", "i2s"]

namespace BinaryOp

open C Machine

def numeric : Integral → Numeric
  | .int => .int
  | .long => .long

def compute : BinaryOp → Word → Word → Except Fault Word
  | arithmetic .add kind => onKind kind fun x y => .ok (x + y)
  | arithmetic .sub kind => onKind kind fun x y => .ok (x - y)
  | arithmetic .mul kind => onKind kind fun x y => .ok (x * y)
  | arithmetic .div kind => onKind kind quotient
  | arithmetic .rem kind => onKind kind remainder
  | shift .left kind => Machine.shift kind fun x count => x <<< count
  | shift .right kind => Machine.shift kind fun x count => x.sshiftRight count
  | shift .unsignedRight kind => Machine.shift kind fun x count => x >>> count
  | bitwise .and kind => same kind fun x y => .ok (x &&& y)
  | bitwise .or kind => same kind fun x y => .ok (x ||| y)
  | bitwise .xor kind => same kind fun x y => .ok (x ^^^ y)
where
  onKind (kind : Numeric)
      (compute : {width : Nat} → BitVec width → BitVec width → Except Fault (BitVec width)) :
      Word → Word → Except Fault Word :=
    match kind with
    | .int => same .int compute
    | .long => same .long compute
    | _ => fun _ _ => .error .illTyped

theorem means_arithmetic (op : Arithmetic) (kind : Integral) :
    (arithmetic op (numeric kind)).Means (arithmetic op (numeric kind)).compute := by
  have types : (arithmetic op (numeric kind)).operandTypes = (kind.stackType, kind.stackType) := by
    cases kind <;> rfl
  cases op with
  | add =>
      have means := means_operator kind .add types (fun _ _ => rfl) Operator.computes_add
      cases kind <;> exact means
  | sub =>
      have means := means_operator kind .sub types (fun _ _ => rfl) Operator.computes_sub
      cases kind <;> exact means
  | mul =>
      have means := means_operator kind .mul types (fun _ _ => rfl) Operator.computes_mul
      cases kind <;> exact means
  | div =>
      have means : (arithmetic .div (numeric kind)).Means (same kind quotient) := by
        refine means_division kind .quotient types ?_ (fun _ => if_pos rfl)
          fun _ _ nonzero => if_neg nonzero
        cases kind <;> exact fun _ _ => rfl
      cases kind <;> exact means
  | rem =>
      have means : (arithmetic .rem (numeric kind)).Means (same kind remainder) := by
        refine means_division kind .remainder types ?_ (fun _ => if_pos rfl)
          fun _ _ nonzero => if_neg nonzero
        cases kind <;> exact fun _ _ => rfl
      cases kind <;> exact means

theorem means_compute {binary : BinaryOp}
    (integral : binary.resultType = .int ∨ binary.resultType = .long) :
    binary.Means binary.compute := by
  cases binary with
  | arithmetic op kind =>
      cases kind with
      | int => exact means_arithmetic op .int
      | long => exact means_arithmetic op .long
      | float => simp [resultType, operandTypes, Numeric.stackType] at integral
      | double => simp [resultType, operandTypes, Numeric.stackType] at integral
  | shift op kind =>
      cases op with
      | left =>
          refine means_throughUnsigned .left kind .shiftLeft (fun x count => x <<< count)
            (fun _ _ => rfl) ?_
          intro m n x count has known small
          exact (throughUnsigned_has kind has known small).1
      | right => exact means_shiftRight kind
      | unsignedRight =>
          refine means_throughUnsigned .unsignedRight kind .shiftRight (fun x count => x >>> count)
            (fun _ _ => rfl) ?_
          intro m n x count has known small
          exact (throughUnsigned_has kind has known small).2
  | bitwise op kind =>
      have computes {op : Operator} := @Operator.computes_bitwise op
      cases op with
      | and => exact means_operator kind .and rfl (fun _ _ => rfl) (computes fun _ _ => rfl)
      | or => exact means_operator kind .or rfl (fun _ _ => rfl) (computes fun _ _ => rfl)
      | xor => exact means_operator kind .xor rfl (fun _ _ => rfl) (computes fun _ _ => rfl)

end BinaryOp

namespace UnaryOp

open C Machine

def isIntegral : UnaryOp → Bool
  | negate kind => kind.isIntegral
  | convert .int .long | convert .long .int => true
  | convert _ _ => false
  | narrow _ => true

def compute : UnaryOp → Word → Except Fault Word
  | negate .int => onInt fun x => .int (-x)
  | negate .long => onLong fun x => .long (-x)
  | convert .int .long => onInt fun x => .long (x.signExtend 64)
  | convert .long .int => onLong fun x => .int (x.setWidth 32)
  | narrow .byte => onInt fun x => .int ((x.setWidth 8).signExtend 32)
  | narrow .char => onInt fun x => .int ((x.setWidth 16).setWidth 32)
  | narrow .short => onInt fun x => .int ((x.setWidth 16).signExtend 32)
  | _ => fun _ => .error .illTyped

theorem agrees_onInt {compute : BitVec 32 → Word} {change : Number → Number} {target : StackType}
    (single : ∀ x number, number.Has .int x → Agrees target (.ok (compute x)) (.value (change number)))
    (word : Word) (number : Number) (kind : word.stackType = .int) (held : word.HeldBy number) :
    Agrees target (onInt compute word) (.value (change number)) := by
  obtain ⟨x, rfl⟩ := exists_int kind
  exact single x number held

theorem agrees_onLong {compute : BitVec 64 → Word} {change : Number → Number} {target : StackType}
    (single : ∀ x number, number.Has .long x → Agrees target (.ok (compute x)) (.value (change number)))
    (word : Word) (number : Number) (kind : word.stackType = .long) (held : word.HeldBy number) :
    Agrees target (onLong compute word) (.value (change number)) := by
  obtain ⟨x, rfl⟩ := exists_long kind
  exact single x number held

theorem means_compute {unary : UnaryOp} (integral : unary.isIntegral = true) :
    unary.Means unary.compute := by
  cases unary with
  | negate kind =>
      cases kind with
      | int => exact means_negate (agrees_onInt fun x number has => .int (Expr.negated_has rfl has))
      | long => exact means_negate (agrees_onLong fun x number has => .long (Expr.negated_has rfl has))
      | float => cases integral
      | double => cases integral
  | convert source target =>
      cases source with
      | int =>
          cases target with
          | long =>
              refine means_cast .long (fun _ => rfl) (agrees_onInt fun x number has => .long ?_)
              exact has.convert rfl rfl
          | _ => cases integral
      | long =>
          cases target with
          | int =>
              refine means_cast .int (fun _ => rfl) (agrees_onLong fun x number has => .int ?_)
              rw [← BitVec.signExtend_eq_setWidth_of_le x (by decide)]
              exact has.convert rfl rfl
          | _ => cases integral
      | _ => cases integral
  | narrow target =>
      cases target with
      | byte =>
          refine means_cast .byte (fun _ => rfl) (agrees_onInt fun x number has => .int ?_)
          exact has.convert_narrow rfl rfl
      | char =>
          refine means_cast .char (fun _ => rfl) (agrees_onInt fun x number has => .int ?_)
          exact has.convert_char
      | short =>
          refine means_cast .short (fun _ => rfl) (agrees_onInt fun x number has => .int ?_)
          exact has.convert_narrow rfl rfl

end UnaryOp

namespace Opcode

open C Machine BinaryOp UnaryOp

theorem step_binary {op : Opcode} {binary : BinaryOp} (found : op.binary? = some binary)
    (integral : op.mnemonic ∈ integralOperators) :
    (binary.resultType = .int ∨ binary.resultType = .long) ∧
      ∀ locals stack, step locals stack (.basic op none) =
        (Operation.binary binary.compute).perform stack := by
  unfold binary? at found
  split at found
  all_goals cases found
  all_goals first
    | exact ⟨.inl rfl, fun _ _ => rfl⟩
    | exact ⟨.inr rfl, fun _ _ => rfl⟩
    | exact absurd integral (by decide +kernel)

theorem step_unary {op : Opcode} {unary : UnaryOp} (found : op.unary? = some unary)
    (integral : op.mnemonic ∈ integralOperators) :
    unary.isIntegral = true ∧
      ∀ locals stack, step locals stack (.basic op none) =
        (Operation.unary unary.compute).perform stack := by
  unfold unary? at found
  split at found
  all_goals cases found
  all_goals first
    | exact ⟨rfl, fun _ _ => rfl⟩
    | exact absurd integral (by decide +kernel)

end Opcode

end BytecodeToC
