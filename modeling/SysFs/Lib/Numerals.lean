import Mathlib.Tactic.Common
import Mathlib.Data.List.TakeWhile

/-!
# Numerals

A numeral is a list of digits in a base up to 36, and `value` is the number it
denotes.  A reader takes the longest run of digits, so what comes after a numeral
must not start with a digit (`Ends`); then the run and the rest are what was written
(`takeWhile_digits`, `dropWhile_digits`).  `value_toDigits` reads a number back from
its decimal text.
-/

namespace Numerals

/-- The value of a digit, with letters of either case, or 36. -/
def digitValue (c : Char) : ℕ :=
  if '0' ≤ c ∧ c ≤ '9' then c.toNat - '0'.toNat
  else if 'a' ≤ c ∧ c ≤ 'z' then c.toNat - 'a'.toNat + 10
  else if 'A' ≤ c ∧ c ≤ 'Z' then c.toNat - 'A'.toNat + 10
  else 36

/-- A digit of the base. -/
def isDigit (base : ℕ) (c : Char) : Bool := digitValue c < base

/-- The number that digits denote. -/
def value (base : ℕ) (ds : List Char) : ℕ := ds.foldl (fun n c => base * n + digitValue c) 0

/-- A numeral: at least one digit. -/
structure IsNumeral (base : ℕ) (ds : List Char) : Prop where
  ne_nil : ds ≠ []
  digits : ∀ c ∈ ds, isDigit base c = true

/-- What comes after the numeral does not go on with it. -/
def Ends (base : ℕ) (rest : List Char) : Prop := ∀ c ∈ rest.head?, isDigit base c = false

variable {base : ℕ} {ds rest : List Char}

theorem ends_nil : Ends base [] := by
  intro c hc
  cases hc

theorem takeWhile_digits (hds : ∀ c ∈ ds, isDigit base c = true) (hends : Ends base rest) :
    (ds ++ rest).takeWhile (isDigit base) = ds := by
  rw [List.takeWhile_append_of_pos hds]
  cases rest with
  | nil => simp
  | cons c rest => rw [List.takeWhile_cons_of_neg (by simp [hends c rfl]), List.append_nil]

theorem dropWhile_digits (hds : ∀ c ∈ ds, isDigit base c = true) (hends : Ends base rest) :
    (ds ++ rest).dropWhile (isDigit base) = rest := by
  rw [List.dropWhile_append_of_pos hds]
  cases rest with
  | nil => rfl
  | cons c rest => rw [List.dropWhile_cons_of_neg (by simp [hends c rfl])]

/-- After the longest run of digits comes no digit. -/
theorem ends_dropWhile (base : ℕ) (s : List Char) : Ends base (s.dropWhile (isDigit base)) := by
  intro c hc
  have hnot := List.head?_dropWhile_not (isDigit base) s
  rwa [hc] at hnot

theorem isNumeral_takeWhile {s : List Char} (h : s.takeWhile (isDigit base) ≠ []) :
    IsNumeral base (s.takeWhile (isDigit base)) :=
  ⟨h, fun _ hc => List.mem_takeWhile_imp hc⟩

theorem value_append_singleton (base : ℕ) (ds : List Char) (c : Char) :
    value base (ds ++ [c]) = base * value base ds + digitValue c := by
  rw [value, List.foldl_append]
  rfl

theorem digitValue_digitChar {d : ℕ} (h : d < 10) : digitValue d.digitChar = d := by
  have hall : ∀ d : Fin 10, digitValue (Nat.digitChar d) = d := by decide
  exact hall ⟨d, h⟩

/-- The decimal text of a number is a numeral. -/
theorem isNumeral_toDigits (n : ℕ) : IsNumeral 10 (Nat.toDigits 10 n) := by
  induction n using Nat.strongRecOn with
  | ind n ih =>
    refine ⟨Nat.toDigits_ne_nil, fun c hc => ?_⟩
    have hdigit : ∀ d < 10, isDigit 10 d.digitChar = true := by
      intro d hd
      rw [isDigit, digitValue_digitChar hd, decide_eq_true hd]
    by_cases hlt : n < 10
    · rw [Nat.toDigits_of_lt_base hlt, List.mem_singleton] at hc
      rw [hc]
      exact hdigit n hlt
    · rw [Nat.toDigits_of_base_le (by decide) (by omega), List.mem_append, List.mem_singleton] at hc
      rcases hc with hc | rfl
      · exact (ih (n / 10) (by omega)).digits c hc
      · exact hdigit _ (Nat.mod_lt n (by decide))

/-- The decimal text of a number denotes it. -/
theorem value_toDigits (n : ℕ) : value 10 (Nat.toDigits 10 n) = n := by
  induction n using Nat.strongRecOn with
  | ind n ih =>
    by_cases hlt : n < 10
    · rw [Nat.toDigits_of_lt_base hlt, value, List.foldl_cons, List.foldl_nil,
        digitValue_digitChar hlt]
      omega
    · rw [Nat.toDigits_of_base_le (by decide) (by omega), value_append_singleton,
        ih (n / 10) (by omega), digitValue_digitChar (Nat.mod_lt n (by decide))]
      omega

end Numerals
