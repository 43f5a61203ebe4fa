import Mathlib.Data.List.TakeWhile

/-!
Decimal texts of natural numbers: digits throughout, and no leading zero but in zero itself.
-/

namespace BytecodeToC

theorem isDigit_toDigits {value : Nat} {digit : Char} (member : digit ∈ Nat.toDigits 10 value) :
    digit.isDigit = true :=
  Nat.isDigit_of_mem_toDigits (by decide) (by decide) member

theorem exists_digit (value : Nat) :
    ∃ digit more, Nat.toDigits 10 value = digit :: more ∧ digit.isDigit = true := by
  obtain ⟨digit, more, shape⟩ := List.exists_cons_of_ne_nil (Nat.toDigits_ne_nil (b := 10) (n := value))
  have member : digit ∈ Nat.toDigits 10 value := by simp [shape]
  exact ⟨digit, more, shape, isDigit_toDigits member⟩

theorem head?_toDigits {value : Nat} (positive : 0 < value) :
    (Nat.toDigits 10 value).head? ≠ some '0' := by
  have single : ∀ digit < 10, 0 < digit → Nat.digitChar digit ≠ '0' := by decide
  induction value using Nat.strongRecOn with
  | ind value ih =>
      by_cases small : value < 10
      · rw [Nat.toDigits_of_lt_base small]
        simpa using single value small positive
      · have before := ih (value / 10) (by omega) (by omega)
        obtain ⟨digit, more, shape⟩ :=
          List.exists_cons_of_ne_nil (Nat.toDigits_ne_nil (b := 10) (n := value / 10))
        rw [shape] at before
        rw [Nat.toDigits_of_base_le (by decide) (by omega), shape]
        exact before

theorem takeWhile_toDigits (value : Nat) {rest : List Char}
    (stops : ∀ c ∈ rest.head?, c.isDigit = false) :
    (Nat.toDigits 10 value ++ rest).takeWhile Char.isDigit = Nat.toDigits 10 value := by
  have behind : rest.takeWhile Char.isDigit = [] := by
    cases rest with
    | nil => rfl
    | cons c more => simp [stops c rfl]
  rw [List.takeWhile_append_of_pos fun digit => isDigit_toDigits, behind, List.append_nil]

theorem dropWhile_toDigits (value : Nat) {rest : List Char}
    (stops : ∀ c ∈ rest.head?, c.isDigit = false) :
    (Nat.toDigits 10 value ++ rest).dropWhile Char.isDigit = rest := by
  rw [List.dropWhile_append_of_pos fun digit => isDigit_toDigits]
  cases rest with
  | nil => rfl
  | cons c more => simp [stops c rfl]

end BytecodeToC
