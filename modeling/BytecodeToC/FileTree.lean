import BytecodeToC.Path

/-!
Files and directories by path, and the working directory from which relative paths start.

How reading and writing can fail is worded as operating systems word it. Programs reach files only
through `FileAccess`, which `FileTree` provides in memory.
-/

namespace BytecodeToC

inductive FileFault where
  | missing
  | notDirectory
  | isDirectory
  | nameTooLong
  | unnameable
deriving DecidableEq, Repr

def FileFault.message : FileFault → String
  | missing => "No such file or directory (os error 2)"
  | notDirectory => "Not a directory (os error 20)"
  | isDirectory => "Is a directory (os error 21)"
  | nameTooLong => "File name too long (os error 36)"
  | unnameable => "file name contained an unexpected NUL byte"

/-- The operations on files that a program needs. A failure comes with its wording. -/
structure FileAccess (m : Type → Type) where
  read : String → m (Except String String)
  isFile : String → m Bool
  write : String → String → m (Except String Unit)

/-- Entries by the components of their path from the root; a directory has no text. -/
structure FileTree where
  working : List String := []
  entries : List (List String × Option String) := []
deriving DecidableEq, Repr, Inhabited

namespace FileTree

inductive Kind where
  | file (text : String)
  | directory
  | absent
deriving DecidableEq, Repr

def kindOf (tree : FileTree) (path : List String) : Kind :=
  match path, tree.entries.lookup path with
  | [], _ => .directory
  | _, some (some text) => .file text
  | _, some none => .directory
  | _, none => .absent

def nameLimit : Nat := 255

def pathLimit : Nat := 4095

/-- Follows components from a place that must be a directory for every further step. The root is
above itself. -/
def walk (tree : FileTree) : List String → List String → Except FileFault (List String)
  | place, [] => .ok place
  | place, part :: rest =>
    match tree.kindOf place with
    | .absent => .error .missing
    | .file _ => .error .notDirectory
    | .directory =>
      if Path.isIdle part then tree.walk place rest
      else if part = ".." then tree.walk place.dropLast rest
      else if nameLimit < part.utf8ByteSize then .error .nameTooLong
      else tree.walk (place ++ [part]) rest

def locate (tree : FileTree) (path : String) : Except FileFault (List String) :=
  if path = "" then .error .missing
  else if path.toList.contains '\x00' then .error .unnameable
  else if pathLimit < path.utf8ByteSize then .error .nameTooLong
  else tree.walk (if Path.isAbsolute path then [] else tree.working) (Path.components path)

def read (tree : FileTree) (path : String) : Except FileFault String := do
  match tree.kindOf (← tree.locate path) with
  | .file text => .ok text
  | .directory => .error .isDirectory
  | .absent => .error .missing

def isFile (tree : FileTree) (path : String) : Bool := (tree.read path).toBool

def put (tree : FileTree) (path : List String) (text : Option String) : FileTree :=
  { tree with entries := (tree.entries.filter fun entry => entry.1 ≠ path) ++ [(path, text)] }

theorem lookup_put_self (tree : FileTree) (path : List String) (text : Option String) :
    (tree.put path text).entries.lookup path = some text := by
  have cleared (entries : List (List String × Option String)) :
      (entries.filter fun entry => entry.1 ≠ path).lookup path = none := by
    rw [List.lookup_eq_none_iff]
    intro entry member
    have other : entry.1 ≠ path := by simpa using (List.mem_filter.mp member).2
    simpa using other.symm
  unfold put
  rw [List.lookup_append, cleared]
  simp

theorem kindOf_put_file (tree : FileTree) {path : List String} (proper : path ≠ []) (text : String) :
    (tree.put path (some text)).kindOf path = .file text := by
  unfold kindOf
  rw [lookup_put_self]
  split <;> simp_all

/-- Replaces or makes a file. A name with a slash after it can only be that of a directory. -/
def write (tree : FileTree) (path text : String) : Except FileFault FileTree := do
  let place ← tree.locate (Path.trimSlashes path)
  if Path.endsWithSlash path then .error .isDirectory
  else match tree.kindOf place with
    | .directory => .error .isDirectory
    | _ => .ok (tree.put place (some text))

def makeParents (tree : FileTree) (path : List String) : FileTree :=
  (List.range path.length).foldl
    (fun tree count =>
      let parent := path.take count
      if tree.kindOf parent = .absent then tree.put parent none else tree) tree

def add (tree : FileTree) (path : List String) (text : Option String) : FileTree :=
  (tree.makeParents path).put path text

/-- A working directory with these files. A name that ends in a slash is that of a directory. -/
def ofList (working : List String) (files : List (String × String)) : FileTree :=
  files.foldl
    (fun tree (name, text) =>
      let parts := (Path.components name).filter fun part => !Path.isIdle part
      tree.add (working ++ parts) (if Path.endsWithSlash name then none else some text))
    (add { working } working none)

def access : FileAccess (StateM FileTree) where
  read path := do pure (((← get).read path).mapError FileFault.message)
  isFile path := do pure ((← get).isFile path)
  write path text := do
    match (← get).write path text with
    | .ok tree =>
      set tree
      pure (.ok ())
    | .error fault => pure (.error fault.message)

end FileTree

end BytecodeToC
