import BytecodeToC.Assembly
import BytecodeToC.Function
import BytecodeToC.Program.Format

/-!
A whole program lowered to one C unit, with the manifest of what the unit defines and
refers to.
-/

namespace BytecodeToC

structure SkippedMethod where
  method : String
  error : Error
deriving DecidableEq, Repr

structure LoweredUnit where
  methods : List LoweredMethod
  dependencies : NameSet
  virtualCalls : NameSet
  pool : ConstantPool
  skipped : List SkippedMethod
deriving DecidableEq, Repr

namespace LoweredUnit

def runtimeHeader : String := "bcnative_runtime.h"

def includeText (header : String) : String := "#include \"" ++ header ++ "\"\n"

def poolText (pool : ConstantPool) : String :=
  match pool.entries with
  | [] => ""
  | entries =>
    "\nstatic const char* const CONSTANT_POOL[] = \x7b\n" ++
      String.join (entries.map fun entry => C.line 1 (Literal.string entry.text ++ ",")) ++ "\x7d;\n"

def text (unit : LoweredUnit) : String :=
  includeText runtimeHeader ++
    String.join (unit.dependencies.names.map fun name => includeText (name ++ ".h")) ++
    poolText unit.pool ++
    String.join (unit.methods.map fun method => "\n" ++ method.code)

def manifest (unit : LoweredUnit) : String :=
  let entry (key : String) (names : List String) : String :=
    "  " ++ Json.quote key ++ ": " ++ Json.prettyStrings "  " names
  "\x7b\n" ++
    String.intercalate ",\n"
      [entry "methods" (unit.methods.map (·.symbol)),
       entry "dependencies" unit.dependencies.names,
       entry "virtual_calls" unit.virtualCalls.names] ++ "\n\x7d"

end LoweredUnit

namespace MethodDecl

/-- What errors call a method: its symbol, or its display name if the descriptor is malformed. -/
def errorName (header : MethodHeader) : String :=
  match header.symbol with
  | .ok symbol => symbol
  | .error _ => header.displayName

def lower (method : MethodDecl) (owner : String) (index : ClassIndex) (options : Options)
    (unit : UnitState) : Except Error LoweredMethod × UnitState :=
  let header := method.header owner
  match method.assemble unit.beginMethod with
  | (.error error, after) => (.error (error.within (errorName header)), after)
  | (.ok list, after) => header.lower list index options after

end MethodDecl

namespace Program

def methodsWithCode (program : Program) : List (String × MethodDecl) :=
  program.classes.flatMap fun decl =>
    (decl.methods.filter MethodDecl.hasCode).map fun method => (decl.name, method)

structure Progress where
  lowered : List LoweredMethod
  skipped : List SkippedMethod
  unit : UnitState

/-- Lowers methods one after the other, giving up at the first failure unless told to go on. -/
def lowerMethods (index : ClassIndex) (options : Options) :
    List (String × MethodDecl) → UnitState → Except Error Progress
  | [], unit => .ok { lowered := [], skipped := [], unit }
  | (owner, method) :: rest, unit =>
    match method.lower owner index options unit with
    | (.ok lowered, after) =>
      (lowerMethods index options rest after).map fun progress =>
        { progress with lowered := lowered :: progress.lowered }
    | (.error error, after) =>
      if options.keepGoing then
        (lowerMethods index options rest after).map fun progress =>
          let skipped := { method := (method.header owner).displayName, error }
          { progress with skipped := skipped :: progress.skipped }
      else .error error

def lower (program : Program) (options : Options) : Except Error LoweredUnit :=
  (lowerMethods program.classIndex options program.methodsWithCode .empty).map fun progress =>
    { methods := progress.lowered
      dependencies := NameSet.ofList (progress.lowered.flatMap (·.dependencies.names))
      virtualCalls := progress.unit.virtualCalls
      pool := progress.unit.pool
      skipped := progress.skipped }

def lowerText (text : String) (options : Options) : Except Error LoweredUnit := do
  let program ← parse text
  program.lower options

end Program

end BytecodeToC
