/-!
Paths as texts. A path is kept as it was written; only at its ends are empty components and single
dots passed over, since they lead nowhere.
-/

namespace BytecodeToC

namespace Path

def components (path : String) : List String := path.splitOn "/"

def ofComponents (parts : List String) : String := String.intercalate "/" parts

def isAbsolute (path : String) : Bool := path.toList.head? = some '/'

def endsWithSlash (path : String) : Bool := path.toList.getLast? = some '/'

def isIdle (part : String) : Bool := part = "" || part = "."

def dropIdleEnd (parts : List String) : List String := (parts.reverse.dropWhile isIdle).reverse

/-- The directory that holds a path. The root and the empty path are held by none; a relative path
of one component is held by the working directory, whose path is empty here. -/
def parent? (path : String) : Option String :=
  match components path with
  | [] => none
  | first :: rest =>
    match dropIdleEnd rest with
    | [] => if first = "" then none else some ""
    | named =>
      match dropIdleEnd named.dropLast with
      | [] => some (if first = "" then "/" else first)
      | above => some (ofComponents (first :: above))

def join (directory path : String) : String :=
  if isAbsolute path || directory = "" then path
  else if endsWithSlash directory then directory ++ path
  else directory ++ "/" ++ path

def sibling (path name : String) : String := join ((parent? path).getD ".") name

def relativeTo? (directory path : String) : Option String :=
  let start := components directory
  let parts := components path
  if start.isPrefixOf parts then
    some (ofComponents ((parts.drop start.length).dropWhile isIdle))
  else
    none

def trimSlashes (path : String) : String :=
  match path.toList with
  | [] => ""
  | first :: rest => String.ofList (first :: (rest.reverse.dropWhile (· = '/')).reverse)

end Path

end BytecodeToC
