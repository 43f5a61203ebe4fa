/-!
The value kinds of the typed operand stack and of typed arrays, with the C spelling of each.
-/

namespace BytecodeToC

inductive StackType where
  | int
  | long
  | float
  | double
  | object
deriving DecidableEq, Repr, Inhabited

namespace StackType

def all : List StackType := [int, long, float, double, object]

def suffix : StackType → String
  | int => "INT"
  | long => "LONG"
  | float => "FLOAT"
  | double => "DOUBLE"
  | object => "OBJ"

def cType : StackType → String
  | int => "JAVA_INT"
  | long => "JAVA_LONG"
  | float => "JAVA_FLOAT"
  | double => "JAVA_DOUBLE"
  | object => "JAVA_OBJECT"

def localLetter : StackType → Char
  | int => 'i'
  | long => 'l'
  | float => 'f'
  | double => 'd'
  | object => 'o'

def zeroValue : StackType → String
  | object => "JAVA_NULL"
  | _ => "0"

def title : StackType → String
  | int => "Int"
  | long => "Long"
  | float => "Float"
  | double => "Double"
  | object => "Object"

def rank : StackType → Nat
  | int => 0
  | long => 1
  | float => 2
  | double => 3
  | object => 4

theorem rank_injective {left right : StackType} (same : left.rank = right.rank) : left = right := by
  cases left <;> cases right <;> simp_all [rank]

end StackType

/-- The element kinds the typed array accessors tell apart; booleans are stored as bytes. -/
inductive ElementType where
  | float
  | double
  | long
  | int
  | byte
  | char
  | short
  | object
deriving DecidableEq, Repr, Inhabited

namespace ElementType

def suffix : ElementType → String
  | float => "FLOAT"
  | double => "DOUBLE"
  | long => "LONG"
  | int => "INT"
  | byte => "BYTE"
  | char => "CHAR"
  | short => "SHORT"
  | object => "OBJECT"

def stackType : ElementType → StackType
  | float => .float
  | double => .double
  | long => .long
  | int | byte | char | short => .int
  | object => .object

end ElementType

end BytecodeToC
