import BytecodeToC.Error
import BytecodeToC.Options
import BytecodeToC.Toml

/-!
Options from a configuration text. Its only entry is `lower`: a table with some of the options by
name, or an array with the first of them in order. Options that are left out keep their defaults.
-/

namespace BytecodeToC

namespace Options

def set? (options : Options) (name : String) (value : Toml) : Option Options :=
  match name, value with
  | "reduce", .boolean reduce => some { options with reduce }
  | "annotate", .boolean annotate => some { options with annotate }
  | "keep_going", .boolean keepGoing => some { options with keepGoing }
  | _, _ => none

def names : List String := ["reduce", "annotate", "keep_going"]

def setAll? (options : Options) (settings : List (String × Toml)) : Option Options :=
  settings.foldlM (fun options (name, value) => options.set? name value) options

/-- Options from a table or an array; items of an array beyond the last option are not looked at. -/
def ofToml? : Toml → Option Options
  | .table _ entries => setAll? {} entries
  | .array items => setAll? {} (names.zip items)
  | _ => none

def ofEntries? : Toml.Entries → Option Options
  | [] => some {}
  | [("lower", value)] => ofToml? value
  | _ => none

def parse (text path : String) : Except Error Options :=
  match (Toml.parse? text).bind ofEntries? with
  | some options => .ok options
  | none => .error (.config (.other "the text is not a configuration") path)

end Options

end BytecodeToC
