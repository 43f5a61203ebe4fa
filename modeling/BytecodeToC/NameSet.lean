/-!
Sets of names, kept as sorted lists without repetition, so that equal sets are equal lists and the
order in which names were added never shows.
-/

namespace BytecodeToC

structure NameSet where
  names : List String
deriving DecidableEq, Repr, Inhabited

namespace NameSet

def empty : NameSet := ⟨[]⟩

instance : Membership String NameSet := ⟨fun set name => name ∈ set.names⟩

theorem mem_def {name : String} {set : NameSet} : name ∈ set ↔ name ∈ set.names := Iff.rfl

def insertSorted (name : String) : List String → List String
  | [] => [name]
  | head :: rest =>
    if name = head then head :: rest
    else if name < head then name :: head :: rest
    else head :: insertSorted name rest

def insert (set : NameSet) (name : String) : NameSet := ⟨insertSorted name set.names⟩

def insertAll (set : NameSet) (names : List String) : NameSet := names.foldl insert set

def ofList (names : List String) : NameSet := empty.insertAll names

def union (left right : NameSet) : NameSet := left.insertAll right.names

theorem mem_insertSorted {name other : String} {names : List String} :
    other ∈ insertSorted name names ↔ other = name ∨ other ∈ names := by
  induction names with
  | nil => simp [insertSorted]
  | cons head rest ih =>
    unfold insertSorted
    split
    · rename_i same
      subst same
      simp
    · split
      · simp
      · simp only [List.mem_cons, ih]
        exact or_left_comm

@[simp] theorem not_mem_empty {name : String} : ¬name ∈ empty := by
  simp [mem_def, empty]

@[simp] theorem mem_insert {name other : String} {set : NameSet} :
    other ∈ set.insert name ↔ other = name ∨ other ∈ set :=
  mem_insertSorted

@[simp] theorem mem_insertAll {name : String} {names : List String} {set : NameSet} :
    name ∈ set.insertAll names ↔ name ∈ names ∨ name ∈ set := by
  induction names generalizing set with
  | nil => simp [insertAll]
  | cons head rest ih =>
    have step : set.insertAll (head :: rest) = (set.insert head).insertAll rest := rfl
    simp only [step, ih, mem_insert, List.mem_cons]
    exact ⟨fun found => by rcases found with found | found | found <;> simp [found],
      fun found => by rcases found with (found | found) | found <;> simp [found]⟩

@[simp] theorem mem_ofList {name : String} {names : List String} : name ∈ ofList names ↔ name ∈ names := by
  simp [ofList]

@[simp] theorem mem_union {name : String} {left right : NameSet} :
    name ∈ left.union right ↔ name ∈ left ∨ name ∈ right :=
  mem_insertAll.trans or_comm

end NameSet

end BytecodeToC
