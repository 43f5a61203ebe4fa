import BytecodeToC.ClassIndex
import BytecodeToC.Expression
import BytecodeToC.Statement
import BytecodeToC.UnitState

/-!
What the lowering of an instruction can see of its method, and the state that the instructions of a
body share. An instruction that fails leaves the changes it has made to that state.
-/

namespace BytecodeToC

structure MethodContext where
  list : Listing
  header : MethodHeader
  index : ClassIndex
  /-- The C names of the object locals, which every return releases. -/
  objectLocals : List String
  labels : List Label

structure BodyState where
  scope : MethodScope
  /-- Sequence numbers of the open try regions, innermost first. -/
  openRegions : List Nat := []
  virtualCalls : NameSet := .empty
deriving DecidableEq, Repr

/-- Lowering with the shared state, which survives an error. -/
abbrev Emit (α : Type) := ExceptT Error (StateM BodyState) α

namespace MethodContext

def currentObject (context : MethodContext) (use : String) : Except Error String :=
  if context.header.isStatic then
    .error (.unsupported (.currentObject use context.header.displayName))
  else
    .ok "__this"

end MethodContext

namespace C

def threadState : String := "threadStateData"

end C

end BytecodeToC
