import BytecodeToC.ConstantPool
import BytecodeToC.MethodScope
import BytecodeToC.NameSet

/-!
State shared by the methods of one C unit: the scope of the current method, the constant
pool, and the symbols called virtually so far.
-/

namespace BytecodeToC

structure UnitState where
  scope : MethodScope := {}
  pool : ConstantPool := {}
  virtualCalls : NameSet := .empty
deriving DecidableEq, Repr, Inhabited

namespace UnitState

def empty : UnitState := {}

def beginMethod (unit : UnitState) : UnitState := { unit with scope := .empty }

end UnitState

end BytecodeToC
