import BytecodeToC.Command
import BytecodeToC.Config
import BytecodeToC.FileTree
import BytecodeToC.LoweredUnit

/-!
Running a command on some files. A run yields an outcome: what goes to the two output streams, and
why it failed if it did. The exit status is zero for success, one for an error in the input or the
files, and two for arguments that are not in order.
-/

namespace BytecodeToC

/-! Reading and lowering files -/

def configFile : String := "bcnative.toml"

namespace FileAccess

variable {m : Type → Type} [Monad m]

def loadOptions (files : FileAccess m) (path : String) : m (Except Error Options) := do
  match ← files.read path with
  | .ok text => pure (Options.parse text path)
  | .error reason => pure (.error (.config (.unreadable reason) path))

def findConfig (files : FileAccess m) (input : String) : m (Option String) := do
  let path := Path.sibling input configFile
  pure (if ← files.isFile path then some path else none)

def readInput (files : FileAccess m) (path : String) : m (Except Error String) := do
  pure ((← files.read path).mapError fun reason => .file (.unreadableInput reason) path)

def lowerFile (files : FileAccess m) (path : String) (options : Options) :
    m (Except Error LoweredUnit) := do
  pure ((← files.readInput path).bind (Program.lowerText · options))

def writeOutput (files : FileAccess m) (path text : String) : m (Except Error Unit) := do
  pure ((← files.write path text).mapError fun reason => .file (.unwritableOutput reason) path)

end FileAccess

/-! Outcomes -/

inductive Failure where
  | usage
  | error (error : Error)
deriving DecidableEq, Repr

structure Outcome where
  stdout : String := ""
  stderr : String := ""
  failure : Option Failure := none
deriving DecidableEq, Repr

def Error.report : Error → String
  | inMethod method cause => "error: while lowering " ++ method ++ "\n" ++ cause.report
  | config cause path => "error[config]: " ++ cause.message ++ "\n  --> " ++ path ++ "\n"
  | file cause path => "error[io]: " ++ cause.message ++ "\n  --> " ++ path ++ "\n"
  | error => "error: " ++ error.message ++ "\n"

namespace Outcome

def usage : String :=
  "usage: bcnative [-v] lower INPUT [-o OUTPUT] [--deps FILE] [--no-reduce] [--annotate]\n" ++
  "                     [--keep-going] [--config FILE]\n" ++
  "       bcnative [-v] mangle OWNER NAME DESCRIPTOR\n" ++
  "       bcnative --version\n"

def status (outcome : Outcome) : UInt32 :=
  match outcome.failure with
  | none => 0
  | some (.error _) => 1
  | some .usage => 2

def failed (error : Error) (stdout : String) : Outcome :=
  { stdout, stderr := error.report, failure := some (.error error) }

def badUsage : Outcome := { stderr := usage, failure := some .usage }

end Outcome

namespace Command

variable {m : Type → Type} [Monad m]

def options (files : FileAccess m) (input : String) (args : LowerArgs) :
    m (Except Error Options) := do
  let found ← match args.config with
    | some path => pure (some path)
    | none => files.findConfig input
  let configured ← match found with
    | some path => files.loadOptions path
    | none => pure (.ok {})
  pure (configured.map fun options =>
    { reduce := options.reduce && !args.noReduce
      annotate := options.annotate || args.annotate
      keepGoing := options.keepGoing || args.keepGoing })

def summary (unit : LoweredUnit) : String :=
  String.join (unit.skipped.map fun skipped =>
    "warning: skipped " ++ skipped.method ++ ": " ++ skipped.error.message ++ "\n") ++
    "lowered " ++ toString unit.methods.length ++ " method(s), skipped " ++
    toString unit.skipped.length ++ "\n"

def writeResults (files : FileAccess m) (args : LowerArgs) (unit : LoweredUnit) : m Outcome := do
  let stdout := if args.output.isSome then "" else unit.text
  let written ← match args.output with
    | some path => files.writeOutput path unit.text
    | none => pure (.ok ())
  match written with
  | .error error => pure (.failed error stdout)
  | .ok _ =>
    let recorded ← match args.deps with
      | some path => files.writeOutput path unit.manifest
      | none => pure (.ok ())
    match recorded with
    | .error error => pure (.failed error stdout)
    | .ok _ => pure { stdout, stderr := summary unit }

def runLower (files : FileAccess m) (input : String) (args : LowerArgs) : m Outcome := do
  match ← files.readInput input with
  | .error error => pure (.failed error "")
  | .ok text =>
    match ← options files input args with
    | .error error => pure (.failed error "")
    | .ok options =>
      match Program.lowerText text options with
      | .error error => pure (.failed error "")
      | .ok unit => writeResults files args unit

def run (files : FileAccess m) : Command → m Outcome
  | lower input args => runLower files input args
  | mangle owner name descriptor =>
    match Symbol.ofDescriptor owner name descriptor with
    | .ok symbol => pure { stdout := symbol ++ "\n" }
    | .error error => pure (.failed error "")
  | version => pure { stdout := "bcnative 0.1.0\n" }
  | help => pure { stdout := Outcome.usage }

end Command

def runArgs {m : Type → Type} [Monad m] (files : FileAccess m) (args : List String) : m Outcome :=
  match Command.ofArgs? args with
  | none => pure .badUsage
  | some command => command.run files

end BytecodeToC
