import BytecodeToC.CommandLine

/-!
The executable: the command line on the files of the operating system.
-/

namespace BytecodeToC

def faultText : IO.Error → String
  | .noFileOrDirectory _ code details
  | .inappropriateType _ code details
  | .invalidArgument _ code details
  | .permissionDenied _ code details => details ++ " (os error " ++ toString code ++ ")"
  | error => toString error

def readDisk (path : String) : IO (Except String String) := do
  try
    return .ok (← IO.FS.readFile path)
  catch error =>
    return .error (faultText error)

def writeDisk (path text : String) : IO (Except String Unit) := do
  try
    IO.FS.writeFile path text
    return .ok ()
  catch error =>
    return .error (faultText error)

def disk : FileAccess IO where
  read := readDisk
  isFile path := do return (← readDisk path).toBool
  write := writeDisk

end BytecodeToC

def main (args : List String) : IO UInt32 := do
  let outcome ← BytecodeToC.runArgs BytecodeToC.disk args
  IO.print outcome.stdout
  IO.eprint outcome.stderr
  return outcome.status
