import BytecodeToC.ClassIndex
import Mathlib.Data.List.Induction

/-!
Owners of static members. An index is described by the additions that made it: which classes they
name, the superclass that was given last, the members that were declared. The search for an owner
returns the nearest class that declares the member on the chain of superclasses, also where the chain
runs into a cycle or leaves the index.
-/

namespace BytecodeToC

namespace ClassIndex

/-! Histories -/

inductive Addition where
  | ofClass (name : String) (superName : Option String)
  | ofMethod (owner name descriptor : String)
  | ofField (owner name : String)
deriving DecidableEq, Repr

namespace Addition

def add (index : ClassIndex) : Addition → ClassIndex
  | ofClass name superName => index.addClass name superName
  | ofMethod owner name descriptor => index.addStaticMethod owner name descriptor
  | ofField owner name => index.addStaticField owner name

def subject : Addition → String
  | ofClass name _ => name
  | ofMethod owner _ _ => owner
  | ofField owner _ => owner

def superGiven? (name : String) : Addition → Option (Option String)
  | ofClass other superName => if other = name then some superName else none
  | _ => none

def methodOf? (name : String) : Addition → Option (String × String)
  | ofMethod owner method descriptor => if owner = name then some (method, descriptor) else none
  | _ => none

def fieldOf? (name : String) : Addition → Option String
  | ofField owner field => if owner = name then some field else none
  | _ => none

def change : Addition → ClassEntry → ClassEntry
  | ofClass _ superName, entry => { entry with superName }
  | ofMethod _ name descriptor, entry =>
    { entry with staticMethods := entry.staticMethods ++ [(name, descriptor)] }
  | ofField _ name, entry => { entry with staticFields := entry.staticFields ++ [name] }

theorem add_eq (index : ClassIndex) (addition : Addition) :
    add index addition = index.update addition.subject addition.change := by
  cases addition <;> rfl

theorem name_change (addition : Addition) (entry : ClassEntry) :
    (addition.change entry).name = entry.name := by
  cases addition <;> rfl

end Addition

def build (additions : List Addition) : ClassIndex := additions.foldl Addition.add .empty

def Indexed (additions : List Addition) (name : String) : Prop :=
  ∃ addition ∈ additions, addition.subject = name

instance (additions : List Addition) (name : String) : Decidable (Indexed additions name) :=
  inferInstanceAs (Decidable (∃ addition ∈ additions, addition.subject = name))

def superOf? (additions : List Addition) (name : String) : Option String :=
  (additions.reverse.findSome? (Addition.superGiven? name)).join

/-- The class so many steps up from `owner`, as long as the chain stays among indexed classes. -/
def ancestor? (additions : List Addition) (owner : String) : Nat → Option String
  | 0 => if Indexed additions owner then some owner else none
  | steps + 1 =>
    if Indexed additions owner then
      (superOf? additions owner).bind fun parent => ancestor? additions parent steps
    else none

/-! Entries -/

theorem find?_update (index : ClassIndex) (name other : String) {change : ClassEntry → ClassEntry}
    (keeps : ∀ entry, (change entry).name = entry.name) :
    (index.update name change).entries.find? (·.name = other) =
      if other = name then some (change ((index.entries.find? (·.name = name)).getD { name }))
      else index.entries.find? (·.name = other) := by
  unfold update
  split
  next known =>
    have kept : ((fun entry => decide (entry.name = other)) ∘
        fun entry => if entry.name = name then change entry else entry) =
        fun entry => decide (entry.name = other) := by
      funext entry
      by_cases changed : entry.name = name <;> simp [changed, keeps]
    rw [List.find?_map, kept]
    by_cases same : other = name
    · subst same
      have listed : (index.entries.find? (·.name = other)).isSome = true :=
        List.find?_isSome.mpr (List.any_eq_true.mp known)
      obtain ⟨entry, found⟩ := Option.isSome_iff_exists.mp listed
      have named : entry.name = other := by simpa using List.find?_some found
      simp [found, named]
    · cases found : index.entries.find? (·.name = other) with
      | none => simp [same]
      | some entry =>
          have named : entry.name = other := by simpa using List.find?_some found
          simp [same, named]
  next unknown =>
    have absent : index.entries.find? (·.name = name) = none := by
      simpa using unknown
    rw [List.find?_append, List.find?_singleton]
    by_cases same : other = name
    · subst same
      simp [absent, keeps]
    · simp [same, keeps, Ne.symm same]

def entryOf (additions : List Addition) (name : String) : ClassEntry :=
  { name
    superName := superOf? additions name
    staticMethods := additions.filterMap (Addition.methodOf? name)
    staticFields := additions.filterMap (Addition.fieldOf? name) }

theorem entryOf_of_not_indexed {additions : List Addition} {name : String}
    (unknown : ¬Indexed additions name) : entryOf additions name = { name } := by
  have other : ∀ addition ∈ additions, addition.subject ≠ name := fun addition member same =>
    unknown ⟨addition, member, same⟩
  have supers : additions.reverse.findSome? (Addition.superGiven? name) = none := by
    refine List.findSome?_eq_none_iff.mpr fun addition member => ?_
    have differs := other addition (List.mem_reverse.mp member)
    cases addition <;> simp_all [Addition.superGiven?, Addition.subject]
  have methods : additions.filterMap (Addition.methodOf? name) = [] := by
    refine List.filterMap_eq_nil_iff.mpr fun addition member => ?_
    have differs := other addition member
    cases addition <;> simp_all [Addition.methodOf?, Addition.subject]
  have fields : additions.filterMap (Addition.fieldOf? name) = [] := by
    refine List.filterMap_eq_nil_iff.mpr fun addition member => ?_
    have differs := other addition member
    cases addition <;> simp_all [Addition.fieldOf?, Addition.subject]
  simp [entryOf, superOf?, supers, methods, fields]

theorem superOf?_append (earlier : List Addition) (last : Addition) (name : String) :
    superOf? (earlier ++ [last]) name =
      match last.superGiven? name with
      | some superName => superName
      | none => superOf? earlier name := by
  rw [superOf?, List.reverse_append, List.reverse_singleton, List.singleton_append,
    List.findSome?_cons]
  cases last.superGiven? name <;> rfl

theorem entryOf_append (earlier : List Addition) (last : Addition) (name : String) :
    entryOf (earlier ++ [last]) name =
      if last.subject = name then last.change (entryOf earlier name) else entryOf earlier name := by
  simp only [entryOf, superOf?_append, List.filterMap_append, List.filterMap_cons,
    List.filterMap_nil]
  cases last with
  | ofClass other superName =>
      by_cases same : other = name <;>
        simp [Addition.superGiven?, Addition.methodOf?, Addition.fieldOf?, Addition.subject,
          Addition.change, same]
  | ofMethod owner method descriptor =>
      by_cases same : owner = name <;>
        simp [Addition.superGiven?, Addition.methodOf?, Addition.fieldOf?, Addition.subject,
          Addition.change, same]
  | ofField owner field =>
      by_cases same : owner = name <;>
        simp [Addition.superGiven?, Addition.methodOf?, Addition.fieldOf?, Addition.subject,
          Addition.change, same]

theorem find?_build (additions : List Addition) (name : String) :
    (build additions).entries.find? (·.name = name) =
      if Indexed additions name then some (entryOf additions name) else none := by
  -- The addition made last is the one at the end of the list.
  induction additions using List.reverseRecOn generalizing name with
  | nil => simp [build, empty, Indexed]
  | append_singleton earlier last ih =>
      have made : build (earlier ++ [last]) = (build earlier).update last.subject last.change := by
        rw [build, List.foldl_append, List.foldl_cons, List.foldl_nil, Addition.add_eq]
        rfl
      have known : (if Indexed earlier last.subject then some (entryOf earlier last.subject)
          else none).getD { name := last.subject } = entryOf earlier last.subject := by
        split
        next => rfl
        next unknown => exact (entryOf_of_not_indexed unknown).symm
      rw [made, find?_update _ _ _ last.name_change, entryOf_append, ih, known]
      by_cases same : last.subject = name
      · have named : Indexed (earlier ++ [last]) name := ⟨last, by simp, same⟩
        subst same
        simp [named]
      · have unchanged : Indexed (earlier ++ [last]) name ↔ Indexed earlier name := by
          simp [Indexed, or_and_right, exists_or, same]
        simp [unchanged, same, Ne.symm same, ih]

/-! The search -/

def climb (entries : List ClassEntry) : Nat → String → Option ClassEntry
  | 0, current => entries.find? (·.name = current)
  | steps + 1, current =>
    (entries.find? (·.name = current)).bind fun entry => entry.superName.bind (climb entries steps)

theorem climb_build (additions : List Addition) (steps : Nat) (owner : String) :
    climb (build additions).entries steps owner =
      (ancestor? additions owner steps).map (entryOf additions) := by
  induction steps generalizing owner with
  | zero =>
      rw [climb, ancestor?, find?_build]
      split <;> rfl
  | succ steps ih =>
      rw [climb, ancestor?, find?_build]
      split
      next =>
        have parent : (entryOf additions owner).superName = superOf? additions owner := rfl
        rw [Option.bind_some, parent]
        cases superOf? additions owner with
        | none => rfl
        | some parent => exact ih parent
      next => rfl

theorem climb_succ {entries : List ClassEntry} {current parent : String} {entry : ClassEntry}
    (found : entries.find? (·.name = current) = some entry) (above : entry.superName = some parent)
    (steps : Nat) : climb entries (steps + 1) current = climb entries steps parent := by
  rw [climb, found, Option.bind_some, above, Option.bind_some]

section

variable {entries : List ClassEntry}

theorem find?_without (gone name : String) :
    (without gone entries).find? (·.name = name) =
      if name = gone then none else entries.find? (·.name = name) := by
  rw [without, List.find?_filter]
  by_cases same : name = gone
  · subst same
    simp
  · rw [if_neg same]
    congr 1
    funext entry
    by_cases named : entry.name = name <;> simp [named, same]

theorem climb_of_climb_without {gone current : String} {steps : Nat} {entry : ClassEntry}
    (reached : climb (without gone entries) steps current = some entry) :
    climb entries steps current = some entry := by
  induction steps generalizing current with
  | zero =>
      rw [climb, find?_without] at reached
      split at reached
      next => cases reached
      next => exact reached
  | succ steps ih =>
      rw [climb, find?_without] at reached
      split at reached
      next => cases reached
      next =>
        obtain ⟨first, found, higher⟩ := Option.bind_eq_some_iff.mp reached
        obtain ⟨parent, above, rest⟩ := Option.bind_eq_some_iff.mp higher
        rw [climb_succ found above]
        exact ih rest

theorem climb_avoids_or_passes {current : String} {steps : Nat} {entry : ClassEntry}
    (reached : climb entries steps current = some entry) (gone : String) :
    climb (without gone entries) steps current = some entry ∨
      ∃ fewer ≤ steps, climb entries fewer gone = some entry := by
  by_cases same : current = gone
  · subst same
    exact .inr ⟨steps, Nat.le_refl _, reached⟩
  · induction steps generalizing current with
    | zero =>
        left
        rw [climb, find?_without, if_neg same]
        exact reached
    | succ steps ih =>
        obtain ⟨first, found, higher⟩ := Option.bind_eq_some_iff.mp reached
        obtain ⟨parent, above, rest⟩ := Option.bind_eq_some_iff.mp higher
        have kept : (without gone entries).find? (·.name = current) = some first := by
          rw [find?_without, if_neg same, found]
        by_cases returns : parent = gone
        · subst returns
          exact .inr ⟨steps, by omega, rest⟩
        · rcases ih rest returns with avoided | ⟨fewer, bound, passed⟩
          · left
            rw [climb_succ kept above]
            exact avoided
          · exact .inr ⟨fewer, by omega, passed⟩

theorem exists_climb_of_le {current : String} {steps earlier : Nat} {entry : ClassEntry}
    (reached : climb entries steps current = some entry) (before : earlier ≤ steps) :
    ∃ lower, climb entries earlier current = some lower := by
  induction earlier generalizing current steps with
  | zero =>
      cases steps with
      | zero => exact ⟨entry, reached⟩
      | succ steps =>
          obtain ⟨first, found, _⟩ := Option.bind_eq_some_iff.mp reached
          exact ⟨first, found⟩
  | succ earlier ih =>
      cases steps with
      | zero => omega
      | succ steps =>
          obtain ⟨first, found, higher⟩ := Option.bind_eq_some_iff.mp reached
          obtain ⟨parent, above, rest⟩ := Option.bind_eq_some_iff.mp higher
          rw [climb_succ found above]
          exact ih rest (by omega)

variable {declares : ClassEntry → Bool}

theorem first_of_declarerAmong {current found : String}
    (search : declarerAmong declares entries current = some found) :
    ∃ steps < entries.length, ∃ entry, climb entries steps current = some entry ∧
      entry.name = found ∧ declares entry = true ∧
      ∀ earlier < steps, ∀ lower, climb entries earlier current = some lower →
        declares lower = false := by
  fun_induction declarerAmong declares entries current with
  | case1 entries current none => cases search
  | case2 entries current entry known declared =>
      cases search
      exact ⟨0, List.length_pos_of_mem (List.mem_of_find?_eq_some known), entry, known,
        by simpa using List.find?_some known, declared, by omega⟩
  | case3 entries current entry known silent top => cases search
  | case4 entries current entry known silent parent above ih =>
      obtain ⟨steps, bound, target, reached, named, declared, first⟩ := ih search
      have shorter := length_without known
      refine ⟨steps + 1, by omega, target, ?_, named, declared, ?_⟩
      · rw [climb_succ known above]
        exact climb_of_climb_without reached
      · intro earlier before lower passed
        cases earlier with
        | zero =>
            obtain rfl : entry = lower := Option.some.inj (known.symm.trans passed)
            simpa using silent
        | succ earlier =>
            -- Up to the declarer the way avoids `current`, so the shortened search saw `lower` too.
            rw [climb_succ known above] at passed
            have within : earlier ≤ steps := by omega
            obtain ⟨seen, met⟩ := exists_climb_of_le reached within
            obtain rfl : seen = lower :=
              Option.some.inj ((climb_of_climb_without met).symm.trans passed)
            exact first earlier (by omega) seen met

theorem silent_of_declarerAmong {current : String}
    (search : declarerAmong declares entries current = none) (steps : Nat) (entry : ClassEntry)
    (reached : climb entries steps current = some entry) : declares entry = false := by
  fun_induction declarerAmong declares entries current generalizing steps with
  | case1 entries current none =>
      cases steps <;> simp [climb, none] at reached
  | case2 entries current first known declared => cases search
  | case3 entries current first known silent top =>
      cases steps with
      | zero =>
          obtain rfl : first = entry := Option.some.inj (known.symm.trans reached)
          simpa using silent
      | succ steps => simp [climb, known, top] at reached
  | case4 entries current first known silent parent above ih =>
      -- A way back through `current` is replaced by the shorter way from there.
      induction steps using Nat.strongRecOn with
      | ind steps shorter =>
          cases steps with
          | zero =>
              obtain rfl : first = entry := Option.some.inj (known.symm.trans reached)
              simpa using silent
          | succ steps =>
              have higher := reached
              rw [climb_succ known above] at higher
              rcases climb_avoids_or_passes higher current with avoided | ⟨fewer, bound, passed⟩
              · exact ih search steps avoided
              · exact shorter fewer (by omega) passed

end

/-! Owners -/

/-- The first class on a chain that declares a member, which stands less than `limit` steps up, or
`owner` if no class on the chain declares it. -/
def IsNearest (limit : Nat) (chain : Nat → Option String) (declares : String → Prop)
    (owner found : String) : Prop :=
  (∃ steps < limit, chain steps = some found ∧ declares found ∧
    ∀ earlier < steps, ∀ name, chain earlier = some name → ¬declares name) ∨
  (found = owner ∧ ∀ steps name, chain steps = some name → ¬declares name)

theorem isNearest_declarerAmong (additions : List Addition) (owner : String)
    {declares : ClassEntry → Bool} {declared : String → Prop}
    (means : ∀ name, declares (entryOf additions name) = true ↔ declared name) :
    IsNearest (build additions).entries.length (ancestor? additions owner) declared owner
      ((declarerAmong declares (build additions).entries owner).getD owner) := by
  have silent : ∀ name, declares (entryOf additions name) = false → ¬declared name := by
    intro name none
    rw [← means, none]
    exact Bool.false_ne_true
  cases search : declarerAmong declares (build additions).entries owner with
  | some found =>
      left
      obtain ⟨steps, bound, entry, reached, named, known, first⟩ := first_of_declarerAmong search
      rw [climb_build] at reached
      obtain ⟨name, above, rfl⟩ := Option.map_eq_some_iff.mp reached
      obtain rfl : name = found := named
      refine ⟨steps, bound, above, (means name).mp known, ?_⟩
      intro earlier before lower passed
      refine silent lower (first earlier before _ ?_)
      rw [climb_build, passed, Option.map_some]
  | none =>
      right
      refine ⟨rfl, ?_⟩
      intro steps name above
      refine silent name (silent_of_declarerAmong search steps _ ?_)
      rw [climb_build, above, Option.map_some]

theorem contains_staticMethods_iff (additions : List Addition) (owner name descriptor : String) :
    (entryOf additions owner).staticMethods.contains (name, descriptor) = true ↔
      Addition.ofMethod owner name descriptor ∈ additions := by
  rw [List.contains_iff_mem, entryOf, List.mem_filterMap]
  constructor
  · rintro ⟨addition, member, given⟩
    cases addition <;> simp_all [Addition.methodOf?]
  · intro member
    exact ⟨_, member, by simp [Addition.methodOf?]⟩

theorem contains_staticFields_iff (additions : List Addition) (owner name : String) :
    (entryOf additions owner).staticFields.contains name = true ↔
      Addition.ofField owner name ∈ additions := by
  rw [List.contains_iff_mem, entryOf, List.mem_filterMap]
  constructor
  · rintro ⟨addition, member, given⟩
    cases addition <;> simp_all [Addition.fieldOf?]
  · intro member
    exact ⟨_, member, by simp [Addition.fieldOf?]⟩

end ClassIndex

open ClassIndex

/-- On every index that additions can make, cyclic and incomplete ones included, the owner of a static
member is the nearest class up the chain for which the member was added. -/
theorem static_owner_nearest_declarer (additions : List Addition) (owner name descriptor : String) :
    IsNearest (build additions).entries.length (ancestor? additions owner)
        (fun above => .ofMethod above name descriptor ∈ additions) owner
        ((build additions).staticMethodOwner owner name descriptor) ∧
      IsNearest (build additions).entries.length (ancestor? additions owner)
        (fun above => .ofField above name ∈ additions) owner
        ((build additions).staticFieldOwner owner name) :=
  ⟨isNearest_declarerAmong additions owner fun above =>
      contains_staticMethods_iff additions above name descriptor,
    isNearest_declarerAmong additions owner fun above =>
      contains_staticFields_iff additions above name⟩

-- The chain enters a cycle that does not lead back to its start.
example :
    (build [.ofClass "t/Main" (some "t/A"), .ofClass "t/A" (some "t/B"), .ofClass "t/B" (some "t/A"),
      .ofField "t/B" "count"]).staticFieldOwner "t/Main" "count" = "t/B" := by
  decide +kernel

end BytecodeToC
