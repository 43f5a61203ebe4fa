import BytecodeToC.Opcode
import Mathlib.Algebra.Group.Int.Defs
import Mathlib.Algebra.Group.Nat.Defs
import Mathlib.Data.Int.Basic

/-!
Integer expressions of C and what they are worth. Operands are promoted and brought to a common type
before an operator is applied, and every result is cut down to the bits of its type. A shift by the
width of its left operand or more, or one that loses bits of a signed number, has no meaning; a
division by zero raises an exception.

In a type that is signed and not promoted any further, the operators compute what the operations on
bit vectors compute.
-/

namespace BytecodeToC

namespace C

inductive IntType where
  | byte
  | char
  | short
  | int
  | uint
  | long
  | ulong
deriving DecidableEq, Repr

namespace IntType

def bits : IntType → Nat
  | byte => 8
  | char | short => 16
  | int | uint => 32
  | long | ulong => 64

def isSigned : IntType → Bool
  | byte | short | int | long => true
  | char | uint | ulong => false

def read (type : IntType) (pattern : BitVec type.bits) : Int :=
  if type.isSigned then pattern.toInt else pattern.toNat

def wrap (type : IntType) (value : Int) : Int := type.read (BitVec.ofInt type.bits value)

def holds (type : IntType) (value : Int) : Bool := type.wrap value = value

def promoted : IntType → IntType
  | byte | char | short => int
  | type => type

def rank : IntType → Nat
  | ulong => 3
  | long => 2
  | uint => 1
  | _ => 0

def common (left right : IntType) : IntType :=
  if left.promoted.rank ≤ right.promoted.rank then right.promoted else left.promoted

def least (type : IntType) : Int := -2 ^ (type.bits - 1)

end IntType

structure Number where
  type : IntType
  value : Int
deriving DecidableEq, Repr

def Number.convert (number : Number) (type : IntType) : Number := ⟨type, type.wrap number.value⟩

inductive Operator where
  | mul
  | add
  | sub
  | shiftLeft
  | shiftRight
  | and
  | xor
  | or
deriving DecidableEq, Repr

inductive Expr where
  | number (value : Number)
  | named (name : List Char)
  | negate (operand : Expr)
  | cast (type : IntType) (operand : Expr)
  | binary (op : Operator) (left right : Expr)
  | call (function : List Char) (first second : Expr)
deriving DecidableEq, Repr

inductive Outcome where
  | undefined
  | trap
  | value (number : Number)
deriving DecidableEq, Repr

namespace Outcome

def map (outcome : Outcome) (change : Number → Number) : Outcome :=
  match outcome with
  | value number => value (change number)
  | other => other

def both (left right : Outcome) (combine : Number → Number → Outcome) : Outcome :=
  match left, right with
  | undefined, _ | _, undefined => undefined
  | trap, _ | _, trap => trap
  | value first, value second => combine first second

theorem both_value (outcome : Outcome) (number : Number) (combine : Number → Number → Number) :
    outcome.both (.value number) (fun first second => .value (combine first second)) =
      outcome.map (combine · number) := by
  cases outcome <;> rfl

theorem both_map (left right : Outcome) (change : Number → Number)
    (combine : Number → Number → Outcome) :
    left.both (right.map change) combine =
      left.both right fun first second => combine first (change second) := by
  cases left <;> cases right <;> rfl

theorem map_both (left right : Outcome) (change : Number → Number)
    (combine : Number → Number → Outcome) :
    (left.map change).both right combine = left.both right fun first => combine (change first) := by
  cases left <;> cases right <;> rfl

theorem both_then (left right : Outcome) (change : Number → Number)
    (combine : Number → Number → Outcome) :
    (left.both right combine).map change =
      left.both right fun first second => (combine first second).map change := by
  cases left <;> cases right <;> rfl

end Outcome

namespace Operator

def exact (compute : Int → Int → Int) (left right : Number) : Number :=
  let type := left.type.common right.type
  ⟨type, type.wrap (compute (type.wrap left.value) (type.wrap right.value))⟩

def bitwise (compute : {width : Nat} → BitVec width → BitVec width → BitVec width)
    (left right : Number) : Number :=
  let type := left.type.common right.type
  ⟨type, type.read (compute (BitVec.ofInt type.bits left.value) (BitVec.ofInt type.bits right.value))⟩

/-- A shift of the promoted left operand. A signed one must not lose bits to the left. -/
def shifted (left right : Number) (toLeft : Bool) : Outcome :=
  let type := left.type.promoted
  let count := right.value.toNat
  let result := if toLeft then left.value * 2 ^ count else left.value >>> count
  if 0 ≤ right.value ∧ count < type.bits ∧
      (toLeft → type.isSigned → 0 ≤ left.value ∧ type.holds result) then
    .value ⟨type, type.wrap result⟩
  else .undefined

def apply (op : Operator) (left right : Number) : Outcome :=
  match op with
  | mul => .value (exact (· * ·) left right)
  | add => .value (exact (· + ·) left right)
  | sub => .value (exact (· - ·) left right)
  | shiftLeft => shifted left right true
  | shiftRight => shifted left right false
  | and => .value (bitwise (· &&& ·) left right)
  | xor => .value (bitwise (· ^^^ ·) left right)
  | or => .value (bitwise (· ||| ·) left right)

end Operator

inductive Division where
  | quotient
  | remainder
deriving DecidableEq, Repr

/-- Division rounds towards zero; the one quotient that does not fit the type is the dividend. -/
def Division.apply (division : Division) (type : IntType) (left right : Number) : Outcome :=
  let dividend := type.wrap left.value
  let divisor := type.wrap right.value
  if divisor = 0 then .trap
  else if dividend = type.least ∧ divisor = -1 then
    .value ⟨type, match division with | .quotient => dividend | .remainder => 0⟩
  else
    .value ⟨type, match division with
      | .quotient => dividend.tdiv divisor
      | .remainder => dividend.tmod divisor⟩

def Division.ofName? (function : List Char) : Option (Division × IntType) :=
  match String.ofList function with
  | "JAVA_IDIV" => some (.quotient, .int)
  | "JAVA_LDIV" => some (.quotient, .long)
  | "JAVA_IREM" => some (.remainder, .int)
  | "JAVA_LREM" => some (.remainder, .long)
  | _ => none

namespace Expr

def negated (number : Number) : Number :=
  let type := number.type.promoted
  ⟨type, type.wrap (-number.value)⟩

def eval (store : List Char → Option Number) : Expr → Outcome
  | number value => .value value
  | named name => match store name with
    | some value => .value value
    | none => .undefined
  | negate operand => (operand.eval store).map negated
  | cast type operand => (operand.eval store).map (·.convert type)
  | binary op left right => (left.eval store).both (right.eval store) op.apply
  | call function first second => match Division.ofName? function with
    | some (division, type) =>
      (first.eval store).both (second.eval store) (division.apply type)
    | none => .undefined

end Expr

/-! Numbers and bit vectors -/

structure Number.Has (number : Number) (type : IntType) {width : Nat} (pattern : BitVec width) :
    Prop where
  type : number.type.promoted = type
  value : number.value = pattern.toInt

namespace IntType

variable {type : IntType}

@[simp] theorem promoted_promoted (type : IntType) : type.promoted.promoted = type.promoted := by
  cases type <;> rfl

theorem read_of_signed (signed : type.isSigned = true) (pattern : BitVec type.bits) :
    type.read pattern = pattern.toInt := by
  simp [read, signed]

theorem read_of_unsigned (unsigned : type.isSigned = false) (pattern : BitVec type.bits) :
    type.read pattern = pattern.toNat := by
  simp [read, unsigned]

theorem wrap_toInt (signed : type.isSigned = true) (pattern : BitVec type.bits) :
    type.wrap pattern.toInt = pattern.toInt := by
  rw [wrap, read_of_signed signed, BitVec.ofInt_toInt]

theorem wrap_eq_self (signed : type.isSigned = true) {value : Int} (low : type.least ≤ value)
    (high : value < -type.least) : type.wrap value = value := by
  rw [wrap, read_of_signed signed]
  apply BitVec.toInt_ofInt_eq_self
  · cases type <;> decide
  · exact low
  · simpa [least] using high

end IntType

def Division.onBits : Division → {width : Nat} → BitVec width → BitVec width → BitVec width
  | .quotient, _, x, y => x.sdiv y
  | .remainder, _, x, y => x.srem y

section Operators

variable {type : IntType} {left right : Number} {x y : BitVec type.bits}

theorem Number.Has.common_eq (first : left.Has type x) (second : right.Has type y) :
    left.type.common right.type = type := by
  simp [IntType.common, first.type, second.type]

theorem Number.Has.promoted (has : left.Has type x) : type.promoted = type := by
  rw [← has.type, IntType.promoted_promoted]

variable (signed : type.isSigned = true) (first : left.Has type x) (second : right.Has type y)
include signed first

theorem Number.Has.wrap_value : type.wrap left.value = x.toInt := by
  rw [first.value, IntType.wrap_toInt signed]

theorem Expr.negated_has : (negated left).Has type (-x) := by
  refine ⟨?_, ?_⟩
  · simp only [negated, first.type, first.promoted]
  · simp only [negated, first.type, first.value]
    rw [IntType.wrap, IntType.read_of_signed signed, BitVec.ofInt_neg, BitVec.ofInt_toInt]

include second

namespace Operator

theorem exact_has {compute : Int → Int → Int}
    {operate : BitVec type.bits → BitVec type.bits → BitVec type.bits}
    (respects : ∀ a b, BitVec.ofInt type.bits (compute a b) =
      operate (BitVec.ofInt type.bits a) (BitVec.ofInt type.bits b)) :
    (exact compute left right).Has type (operate x y) := by
  have shared := first.common_eq second
  refine ⟨?_, ?_⟩
  · simp only [exact, shared, first.promoted]
  · simp only [exact, shared, first.wrap_value signed, second.wrap_value signed]
    rw [IntType.wrap, IntType.read_of_signed signed, respects, BitVec.ofInt_toInt, BitVec.ofInt_toInt]

theorem bitwise_has (compute : {width : Nat} → BitVec width → BitVec width → BitVec width) :
    (bitwise compute left right).Has type (compute x y) := by
  have shared := first.common_eq second
  subst shared
  refine ⟨first.promoted, ?_⟩
  simp only [bitwise, first.value, second.value, BitVec.ofInt_toInt]
  exact IntType.read_of_signed signed _

end Operator

theorem Division.apply_has (division : Division) :
    (y = 0 → division.apply type left right = .trap) ∧
    (y ≠ 0 → ∃ number, division.apply type left right = .value number ∧
      number.Has type (division.onBits x y)) := by
  have zero : y.toInt = 0 ↔ y = 0 := by
    rw [← BitVec.toInt_zero (w := type.bits), BitVec.toInt_inj]
    rfl
  have least : x.toInt = type.least ↔ x = BitVec.intMin type.bits := by
    rw [← BitVec.toInt_inj, BitVec.toInt_intMin]
    cases type <;> rfl
  have minusOne : y.toInt = -1 ↔ y = -BitVec.ofNat type.bits 1 := by
    rw [← BitVec.toInt_inj]
    cases type <;> rfl
  unfold Division.apply
  simp only [first.wrap_value signed, second.wrap_value signed, zero, least, minusOne]
  constructor
  · intro none
    rw [if_pos none]
  · intro some
    rw [if_neg some]
    by_cases overflow : x = BitVec.intMin type.bits ∧ y = -BitVec.ofNat type.bits 1
    · obtain ⟨rfl, rfl⟩ := overflow
      refine ⟨_, if_pos ⟨rfl, rfl⟩, first.promoted, ?_⟩
      cases division with
      | quotient => rw [onBits, BitVec.intMin_sdiv_neg_one]
      | remainder => rw [onBits, BitVec.toInt_srem, minusOne.mpr rfl, Int.tmod_neg, Int.tmod_one]
    · refine ⟨_, if_neg overflow, first.promoted, ?_⟩
      cases division with
      | quotient => exact (BitVec.toInt_sdiv_of_ne_or_ne x y (not_and_or.mp overflow)).symm
      | remainder => exact (BitVec.toInt_srem x y).symm

end Operators

namespace Operator

def Computes (op : Operator)
    (operate : {width : Nat} → BitVec width → BitVec width → BitVec width) : Prop :=
  ∀ (type : IntType) (left right : Number) (x y : BitVec type.bits), type.isSigned = true →
    left.Has type x → right.Has type y →
      ∃ number, op.apply left right = .value number ∧ number.Has type (operate x y)

theorem computes_add : add.Computes (· + ·) := by
  intro type left right x y signed first second
  exact ⟨_, rfl, exact_has signed first second BitVec.ofInt_add⟩

theorem computes_mul : mul.Computes (· * ·) := by
  intro type left right x y signed first second
  exact ⟨_, rfl, exact_has signed first second BitVec.ofInt_mul⟩

theorem computes_sub : sub.Computes (· - ·) := by
  intro type left right x y signed first second
  refine ⟨_, rfl, exact_has signed first second ?_⟩
  intro a b
  rw [Int.sub_eq_add_neg, BitVec.ofInt_add, BitVec.ofInt_neg, BitVec.sub_eq_add_neg]

theorem computes_bitwise {op : Operator}
    {compute : {width : Nat} → BitVec width → BitVec width → BitVec width}
    (applies : ∀ left right, op.apply left right = .value (bitwise compute left right)) :
    op.Computes compute := by
  intro type left right x y signed first second
  exact ⟨_, applies left right, bitwise_has signed first second compute⟩

end Operator

/-! Casts -/

theorem Number.Has.convert {type target : IntType} (signed : target.isSigned = true)
    (own : target.promoted = target) {number : Number} {x : BitVec type.bits}
    (has : number.Has type x) : (number.convert target).Has target (x.signExtend target.bits) := by
  refine ⟨own, ?_⟩
  simp only [Number.convert, has.value, IntType.wrap]
  exact IntType.read_of_signed signed _

theorem Number.Has.convert_narrow {target : IntType} (signed : target.isSigned = true)
    (narrow : target.promoted = .int) {number : Number} {x : BitVec 32} (has : number.Has .int x) :
    (number.convert target).Has .int ((x.setWidth target.bits).signExtend 32) := by
  have fits : target.bits ≤ 32 := by
    cases target <;> first | decide | cases narrow
  refine ⟨narrow, ?_⟩
  rw [BitVec.toInt_signExtend_of_le fits, ← BitVec.signExtend_eq_setWidth_of_le x fits]
  simp only [Number.convert, has.value, IntType.wrap]
  exact IntType.read_of_signed signed _

theorem Number.Has.convert_char {number : Number} {x : BitVec 32} (has : number.Has .int x) :
    (number.convert .char).Has .int ((x.setWidth 16).setWidth 32) := by
  refine ⟨rfl, ?_⟩
  have small : 2 * ((x.setWidth 16).setWidth 32).toNat < 2 ^ 32 := by
    rw [BitVec.toNat_setWidth_of_le (by decide)]
    omega
  rw [BitVec.toInt_eq_toNat_of_lt small, BitVec.toNat_setWidth_of_le (by decide),
    ← BitVec.signExtend_eq_setWidth_of_le x (by decide)]
  simp only [Number.convert, has.value, IntType.wrap]
  rfl

/-! Shifts -/

theorem masked_value {number : Number} {y : BitVec 32} (has : number.Has .int y) (size : Nat)
    (small : size < 32) :
    (Operator.bitwise (· &&& ·) number ⟨.int, (2 ^ size - 1 : Nat)⟩).value =
      (y.toNat % 2 ^ size : Nat) := by
  have bound : 2 ^ size ≤ 2 ^ 31 := Nat.pow_le_pow_right (by decide) (by omega)
  have ones : (BitVec.ofNat 32 (2 ^ size - 1)).toNat = 2 ^ size - 1 := by
    rw [BitVec.toNat_ofNat]
    exact Nat.mod_eq_of_lt (by omega)
  have mask : Number.Has ⟨.int, (2 ^ size - 1 : Nat)⟩ .int (BitVec.ofNat 32 (2 ^ size - 1)) := by
    refine ⟨rfl, ?_⟩
    rw [BitVec.toInt_eq_toNat_of_lt (by omega), ones]
  have cut : (y &&& BitVec.ofNat 32 (2 ^ size - 1)).toNat = y.toNat % 2 ^ size := by
    rw [BitVec.toNat_and, ones, Nat.and_two_pow_sub_one_eq_mod]
  have less : y.toNat % 2 ^ size < 2 ^ size := Nat.mod_lt _ (Nat.two_pow_pos size)
  have result : (Operator.bitwise (· &&& ·) number ⟨.int, (2 ^ size - 1 : Nat)⟩).Has .int
      (y &&& BitVec.ofNat 32 (2 ^ size - 1)) := Operator.bitwise_has rfl has mask (· &&& ·)
  rw [result.value, BitVec.toInt_eq_toNat_of_lt (by rw [cut]; omega), cut]

theorem shiftRight_has {type : IntType} (signed : type.isSigned = true) {left right : Number}
    {x : BitVec type.bits} (has : left.Has type x) {count : Nat} (known : right.value = count)
    (small : count < type.bits) :
    ∃ number, Operator.shiftRight.apply left right = .value number ∧
      number.Has type (x.sshiftRight count) := by
  refine ⟨⟨type, type.wrap (left.value >>> count)⟩, ?_, has.promoted, ?_⟩
  · simp [Operator.apply, Operator.shifted, has.type, known, small]
  · rw [has.value, ← BitVec.toInt_sshiftRight, IntType.wrap_toInt signed]

section Unsigned

variable {wide : IntType} {width : Nat} (bits : wide.bits = width) (unsigned : wide.isSigned = false)
include bits unsigned

theorem Number.Has.convert_unsigned {type : IntType} {number : Number} {x : BitVec width}
    (has : number.Has type x) : number.convert wide = ⟨wide, x.toNat⟩ := by
  subst bits
  rw [Number.convert, has.value, IntType.wrap, BitVec.ofInt_toInt, IntType.read_of_unsigned unsigned]

theorem shifted_unsigned (own : wide.promoted = wide) (x : BitVec width) {right : Number} {count : Nat}
    (known : right.value = count) (small : count < width) :
    Operator.shiftLeft.apply ⟨wide, x.toNat⟩ right = .value ⟨wide, (x <<< count).toNat⟩ ∧
      Operator.shiftRight.apply ⟨wide, x.toNat⟩ right = .value ⟨wide, (x >>> count).toNat⟩ := by
  subst bits
  have wrapped (value : Nat) : wide.wrap value = (value % 2 ^ wide.bits : Nat) := by
    rw [IntType.wrap, IntType.read_of_unsigned unsigned, BitVec.ofInt_natCast, BitVec.toNat_ofNat]
  constructor
  · have exact : wide.wrap (x.toNat * 2 ^ count) = (x <<< count).toNat := by
      rw [BitVec.toNat_shiftLeft, Nat.shiftLeft_eq, ← wrapped]
      push_cast
      rfl
    simp [Operator.apply, Operator.shifted, own, known, small, unsigned, exact]
  · have exact : wide.wrap ((x.toNat : Int) >>> count) = (x >>> count).toNat := by
      rw [← Int.natCast_shiftRight, wrapped, ← BitVec.toNat_ushiftRight, BitVec.toNat_mod_cancel]
    simp [Operator.apply, Operator.shifted, own, known, small, exact]

omit unsigned in
theorem has_convert_toNat (signed : wide.isSigned = true) (own : wide.promoted = wide)
    (type : IntType) (x : BitVec width) : (Number.convert ⟨type, x.toNat⟩ wide).Has wide x := by
  subst bits
  refine ⟨own, ?_⟩
  simp only [Number.convert, IntType.wrap]
  rw [BitVec.ofInt_natCast, BitVec.ofNat_toNat, BitVec.setWidth_eq, IntType.read_of_signed signed]

end Unsigned

end C

end BytecodeToC
