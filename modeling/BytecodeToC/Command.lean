/-!
The commands of the program and how arguments spell them. Arguments are read from left to right; a
request for help or for the version ends the reading, so that only what stands before it can be
wrong. An option is given at most once, except for the one that asks for more messages.
-/

namespace BytecodeToC

structure LowerArgs where
  input : Option String := none
  output : Option String := none
  deps : Option String := none
  config : Option String := none
  noReduce : Bool := false
  annotate : Bool := false
  keepGoing : Bool := false
deriving DecidableEq, Repr

inductive Command where
  | lower (input : String) (args : LowerArgs)
  | mangle (owner name descriptor : String)
  | version
  | help
deriving DecidableEq, Repr

inductive ValueFlag where
  | output
  | deps
  | config
deriving DecidableEq, Repr

inductive Flag where
  | verbose
  | help
  | noReduce
  | annotate
  | keepGoing
  | value (flag : ValueFlag)
deriving DecidableEq, Repr

def longFlag? : String → Option Flag
  | "verbose" => some .verbose
  | "help" => some .help
  | "no-reduce" => some .noReduce
  | "annotate" => some .annotate
  | "keep-going" => some .keepGoing
  | "output" => some (.value .output)
  | "deps" => some (.value .deps)
  | "config" => some (.value .config)
  | _ => none

def shortFlag? : Char → Option Flag
  | 'v' => some .verbose
  | 'h' => some .help
  | 'o' => some (.value .output)
  | _ => none

def isValue (text : String) : Bool :=
  match text.toList with
  | [] => false
  | ['-'] => true
  | '-' :: _ => false
  | _ => true

namespace LowerArgs

def setValue? (args : LowerArgs) (flag : ValueFlag) (text : String) : Option LowerArgs :=
  if text = "" then none
  else
    match flag with
    | .output => if args.output.isSome then none else some { args with output := some text }
    | .deps => if args.deps.isSome then none else some { args with deps := some text }
    | .config => if args.config.isSome then none else some { args with config := some text }

def setSwitch? (args : LowerArgs) : Flag → Option LowerArgs
  | .noReduce => if args.noReduce then none else some { args with noReduce := true }
  | .annotate => if args.annotate then none else some { args with annotate := true }
  | .keepGoing => if args.keepGoing then none else some { args with keepGoing := true }
  | .verbose => some args
  | _ => none

def setInput? (args : LowerArgs) (text : String) : Option LowerArgs :=
  if text = "" ∨ args.input.isSome then none else some { args with input := some text }

inductive Step where
  | next (args : LowerArgs)
  | needsValue (args : LowerArgs) (flag : ValueFlag)
  | help
  | bad

def Step.ofOption : Option LowerArgs → Step
  | some args => .next args
  | none => .bad

/-- Short options written together. The value of an option is the rest of its argument, if any. -/
def readShort (args : LowerArgs) : List Char → Step
  | [] => .next args
  | c :: rest =>
    match shortFlag? c with
    | none => .bad
    | some .help => .help
    | some (.value flag) =>
      match rest with
      | [] => .needsValue args flag
      | '=' :: text => .ofOption (args.setValue? flag (String.ofList text))
      | text => .ofOption (args.setValue? flag (String.ofList text))
    | some flag =>
      match args.setSwitch? flag with
      | some args => readShort args rest
      | none => .bad

/-- A long option, with its value after an equals sign or in the next argument. -/
def readLong (args : LowerArgs) (text : List Char) : Step :=
  let name := String.ofList (text.takeWhile (· ≠ '='))
  match longFlag? name, text.dropWhile (· ≠ '=') with
  | none, _ => .bad
  | some (.value flag), [] => .needsValue args flag
  | some (.value flag), _ :: value => .ofOption (args.setValue? flag (String.ofList value))
  | some .help, [] => .help
  | some flag, [] => .ofOption (args.setSwitch? flag)
  | some _, _ => .bad

def readArg (args : LowerArgs) (text : String) : Step :=
  match text.toList with
  | '-' :: '-' :: name => readLong args name
  | '-' :: c :: rest => readShort args (c :: rest)
  | _ => .ofOption (args.setInput? text)

end LowerArgs

namespace Command

def readLower : LowerArgs → List String → Option Command
  | args, [] => args.input.map (.lower · args)
  | args, "--" :: rest =>
    match rest with
    | [] => args.input.map (.lower · args)
    | [input] => (args.setInput? input).bind fun args => args.input.map (.lower · args)
    | _ => none
  | args, text :: rest =>
    match args.readArg text with
    | .bad => none
    | .help => some .help
    | .next args => readLower args rest
    | .needsValue args flag =>
      match rest with
      | [] => none
      | value :: rest =>
        if isValue value then
          match args.setValue? flag value with
          | some args => readLower args rest
          | none => none
        else none

def readCommonShort? : List Char → Option Bool
  | [] => some false
  | 'v' :: rest => readCommonShort? rest
  | 'h' :: _ => some true
  | _ => none

def readMangle : List String → List String → Option Command
  | [owner, name, descriptor], [] => some (.mangle owner name descriptor)
  | _, [] => none
  | operands, "--" :: rest =>
    match operands ++ rest with
    | [owner, name, descriptor] => some (.mangle owner name descriptor)
    | _ => none
  | operands, "--verbose" :: rest => readMangle operands rest
  | _, "--help" :: _ => some .help
  | operands, text :: rest =>
    match text.toList with
    | '-' :: '-' :: _ => none
    | '-' :: c :: more =>
      match readCommonShort? (c :: more) with
      | none => none
      | some true => some .help
      | some false => readMangle operands rest
    | _ => if operands.length < 3 then readMangle (operands ++ [text]) rest else none

def readLeadingShort? : List Char → Option (Option Command)
  | [] => some none
  | 'v' :: rest => readLeadingShort? rest
  | 'h' :: _ => some (some .help)
  | 'V' :: _ => some (some .version)
  | _ => none

def isCommandName (name : String) : Bool := ["lower", "mangle", "help"].contains name

def ofArgs? : List String → Option Command
  | [] => none
  | "lower" :: rest => readLower {} rest
  | "mangle" :: rest => readMangle [] rest
  | ["help"] => some .help
  | ["help", name] => if isCommandName name then some .help else none
  | "--verbose" :: rest => ofArgs? rest
  | "--help" :: _ => some .help
  | "--version" :: _ => some .version
  | text :: rest =>
    match text.toList with
    | '-' :: '-' :: _ => none
    | '-' :: c :: more =>
      match readLeadingShort? (c :: more) with
      | none => none
      | some (some command) => some command
      | some none => ofArgs? rest
    | _ => none

end Command

end BytecodeToC
