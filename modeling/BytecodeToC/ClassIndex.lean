import BytecodeToC.Program

/-!
The static members that classes declare, and the search for the class that declares one. The search
walks up the chain of superclasses and consults each class at most once, so it ends on cyclic
chains too.
-/

namespace BytecodeToC

structure ClassEntry where
  name : String
  superName : Option String := none
  staticMethods : List (String × String) := []
  staticFields : List String := []
deriving DecidableEq, Repr

structure ClassIndex where
  entries : List ClassEntry := []
deriving DecidableEq, Repr, Inhabited

namespace ClassIndex

def empty : ClassIndex := {}

def update (index : ClassIndex) (name : String) (change : ClassEntry → ClassEntry) : ClassIndex :=
  if index.entries.any (·.name = name) then
    { entries := index.entries.map fun entry => if entry.name = name then change entry else entry }
  else
    { entries := index.entries ++ [change { name }] }

def addClass (index : ClassIndex) (name : String) (superName : Option String) : ClassIndex :=
  index.update name fun entry => { entry with superName }

def addStaticMethod (index : ClassIndex) (owner name descriptor : String) : ClassIndex :=
  index.update owner fun entry =>
    { entry with staticMethods := entry.staticMethods ++ [(name, descriptor)] }

def addStaticField (index : ClassIndex) (owner name : String) : ClassIndex :=
  index.update owner fun entry => { entry with staticFields := entry.staticFields ++ [name] }

def contains (index : ClassIndex) (name : String) : Bool := index.entries.any (·.name = name)

def without (name : String) (entries : List ClassEntry) : List ClassEntry :=
  entries.filter (·.name ≠ name)

theorem length_without {name : String} {entries : List ClassEntry} {entry : ClassEntry}
    (found : entries.find? (·.name = name) = some entry) :
    (without name entries).length < entries.length := by
  apply List.length_filter_lt_length_iff_exists.mpr
  exact ⟨entry, List.mem_of_find?_eq_some found, by simpa using List.find?_some found⟩

/-- The first class that declares a member, from `current` upwards among the entries not yet
consulted. -/
def declarerAmong (declares : ClassEntry → Bool) (entries : List ClassEntry) (current : String) :
    Option String :=
  match _found : entries.find? (·.name = current) with
  | none => none
  | some entry =>
    if declares entry then some current
    else
      match entry.superName with
      | none => none
      | some parent => declarerAmong declares (without current entries) parent
termination_by entries.length
decreasing_by exact length_without ‹_›

/-- The class that declares a static method, or `owner` if none on its chain does. -/
def staticMethodOwner (index : ClassIndex) (owner name descriptor : String) : String :=
  (declarerAmong (·.staticMethods.contains (name, descriptor)) index.entries owner).getD owner

def staticFieldOwner (index : ClassIndex) (owner name : String) : String :=
  (declarerAmong (·.staticFields.contains name) index.entries owner).getD owner

def addMembers (index : ClassIndex) (decl : ClassDecl) : ClassIndex :=
  let withMethods := (decl.methods.filter (·.isStatic)).foldl
    (fun index method => index.addStaticMethod decl.name method.name method.descriptor) index
  (decl.fields.filter (·.isStatic)).foldl
    (fun index field => index.addStaticField decl.name field.name) withMethods

end ClassIndex

def Program.classIndex (program : Program) : ClassIndex :=
  program.classes.foldl
    (fun index decl => (index.addClass decl.name decl.superName).addMembers decl) .empty

end BytecodeToC
