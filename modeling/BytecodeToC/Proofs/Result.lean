import BytecodeToC.Error

/-!
Results that may fail: when a composed computation succeeds, with what values, and with which errors
one can fail.
-/

namespace BytecodeToC

namespace Result

variable {α β : Type}

@[simp] theorem toOption_ok (value : α) :
    (Except.ok value : Except Error α).toOption = some value := rfl

@[simp] theorem toOption_error (error : Error) :
    (Except.error error : Except Error α).toOption = none := rfl

@[simp] theorem toOption_bind (result : Except Error α) (next : α → Except Error β) :
    (result >>= next).toOption = result.toOption.bind fun value => (next value).toOption := by
  cases result <;> rfl

theorem toOption_eq_some_iff (result : Except Error α) (value : α) :
    result.toOption = some value ↔ result = .ok value := by
  cases result <;> simp

theorem toBool_eq_true_iff (result : Except Error α) :
    result.toBool = true ↔ ∃ value, result.toOption = some value := by
  cases result <;> simp [Except.toBool, Except.toOption]

theorem bind_eq_ok_iff (result : Except Error α) (next : α → Except Error β) (value : β) :
    (result >>= next) = .ok value ↔ ∃ given, result = .ok given ∧ next given = .ok value := by
  cases result with
  | ok given => simp [bind, Except.bind]
  | error error => simp [bind, Except.bind]

theorem map_eq_ok_iff (result : Except Error α) (change : α → β) (value : β) :
    result.map change = .ok value ↔ ∃ given, result = .ok given ∧ change given = value := by
  cases result <;> simp [Except.map]

def Yields (good : α → Prop) (result : Except Error α) : Prop :=
  ∀ value, result = .ok value → good value

@[simp] theorem yields_ok (good : α → Prop) (value : α) :
    Yields good (.ok value : Except Error α) ↔ good value := by
  simp [Yields]

@[simp] theorem yields_error (good : α → Prop) (error : Error) :
    Yields good (.error error : Except Error α) := by
  simp [Yields]

theorem yields_map {good : β → Prop} (result : Except Error α) {change : α → β}
    (all : ∀ value, good (change value)) : Yields good (result.map change) := by
  intro value made
  obtain ⟨given, _, rfl⟩ := (map_eq_ok_iff ..).mp made
  exact all given

theorem yields_bind {good : β → Prop} (result : Except Error α) {next : α → Except Error β}
    (all : ∀ value, Yields good (next value)) : Yields good (result >>= next) := by
  intro value made
  obtain ⟨given, _, made⟩ := (bind_eq_ok_iff ..).mp made
  exact all given value made

def Fails (kind : Error → Prop) (result : Except Error α) : Prop :=
  ∀ error, result = .error error → kind error

variable {kind : Error → Prop}

@[simp] theorem fails_ok (value : α) : Fails kind (.ok value : Except Error α) := by
  intro error same
  cases same

@[simp] theorem fails_error (error : Error) :
    Fails kind (.error error : Except Error α) ↔ kind error := by
  constructor
  · intro fails
    exact fails error rfl
  · rintro given other same
    cases same
    exact given

@[simp] theorem fails_map (result : Except Error α) (change : α → β) :
    Fails kind (result.map change) ↔ Fails kind result := by
  cases result <;> simp [Except.map]

@[simp] theorem mapError_ok (value : α) (change : Error → Error) :
    (Except.ok value).mapError change = .ok value :=
  rfl

@[simp] theorem mapError_error (error : Error) (change : Error → Error) :
    (Except.error error : Except Error α).mapError change = .error (change error) :=
  rfl

@[simp] theorem fails_mapError (result : Except Error α) (change : Error → Error) :
    Fails kind (result.mapError change) ↔ Fails (fun error => kind (change error)) result := by
  cases result <;> simp

theorem Fails.bind {result : Except Error α} {next : α → Except Error β}
    (first : Fails kind result) (rest : ∀ value, Fails kind (next value)) :
    Fails kind (result >>= next) := by
  cases result with
  | ok value => exact rest value
  | error error => simpa [Bind.bind, Except.bind] using first

theorem Fails.mono {other : Error → Prop} {result : Except Error α} (fails : Fails kind result)
    (weaker : ∀ error, kind error → other error) : Fails other result :=
  fun error same => weaker error (fails error same)

end Result

end BytecodeToC
