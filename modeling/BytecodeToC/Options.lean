/-!
Options of one run.
-/

namespace BytecodeToC

structure Options where
  reduce : Bool := true
  annotate : Bool := false
  keepGoing : Bool := false
deriving DecidableEq, Repr, Inhabited

end BytecodeToC
