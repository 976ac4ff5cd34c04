import Mathlib.Data.List.TakeWhile
import Abacus.Decimal.Numeral

/-!
# Abacus — Decimal — Digits

The digits of a whole number: they are digits, there is one at least, the first of them is a zero
only for zero itself (`head?_digitsOf`), and they write the number they were taken from
(`ofDigits_digitsOf`).
-/

namespace Abacus

/-- A run of digits ends where no digit follows. -/
theorem takeWhile_isPlainDigit {ds rest : List Char} (hds : ∀ c ∈ ds, Text.isPlainDigit c = true)
    (hrest : ∀ c ∈ rest.head?, Text.isPlainDigit c = false) :
    (ds ++ rest).takeWhile Text.isPlainDigit = ds := by
  rw [List.takeWhile_append_of_pos hds]
  cases rest with
  | nil => simp
  | cons c cs => simp [hrest c rfl]

theorem dropWhile_isPlainDigit {ds rest : List Char} (hds : ∀ c ∈ ds, Text.isPlainDigit c = true)
    (hrest : ∀ c ∈ rest.head?, Text.isPlainDigit c = false) :
    (ds ++ rest).dropWhile Text.isPlainDigit = rest := by
  rw [List.dropWhile_append_of_pos hds]
  cases rest with
  | nil => rfl
  | cons c cs => simp [hrest c rfl]

theorem ne_of_isPlainDigit {c d : Char} (hc : Text.isPlainDigit c = true)
    (hd : Text.isPlainDigit d = false) : c ≠ d := by
  rintro rfl
  rw [hc] at hd
  cases hd

/-- Digits stay digits when zeros are put before them. -/
theorem isPlainDigit_zeros_append {ds : List Char} (h : ∀ c ∈ ds, Text.isPlainDigit c = true)
    (k : ℕ) : ∀ c ∈ List.replicate k '0' ++ ds, Text.isPlainDigit c = true := by
  intro c hc
  rcases List.mem_append.mp hc with hc | hc
  · rw [List.eq_of_mem_replicate hc]
    rfl
  · exact h c hc

theorem isPlainDigit_append_zeros {ds : List Char} (h : ∀ c ∈ ds, Text.isPlainDigit c = true)
    (k : ℕ) : ∀ c ∈ ds ++ List.replicate k '0', Text.isPlainDigit c = true := by
  intro c hc
  rcases List.mem_append.mp hc with hc | hc
  · exact h c hc
  · rw [List.eq_of_mem_replicate hc]
    rfl

namespace Decimal

theorem isPlainDigit_of_mem_digitsOf {n : ℕ} {c : Char} (h : c ∈ digitsOf n) :
    Text.isPlainDigit c = true := by
  have hdigit := Nat.isDigit_of_mem_toDigits (by decide) (by decide) h
  simpa [Text.isPlainDigit, Char.isDigit, Char.le_def] using hdigit

theorem digitsOf_ne_nil (n : ℕ) : digitsOf n ≠ [] :=
  Nat.toDigits_ne_nil

@[simp] theorem ofDigits_digitsOf (n : ℕ) : ofDigits (digitsOf n) = n :=
  Nat.ofDigitChars_ten_toDigits

/-- The last digit of a number, and those of its tenth before it. -/
theorem digitsOf_eq (n : ℕ) :
    digitsOf n = if n < 10 then [n.digitChar] else digitsOf (n / 10) ++ [(n % 10).digitChar] :=
  Nat.toDigits_eq_if (by decide)

theorem length_digitsOf_pos (n : ℕ) : 0 < (digitsOf n).length :=
  Nat.length_toDigits_pos

/-- How many digits a number has, by powers of ten. -/
theorem length_digitsOf_le_iff {n k : ℕ} (hk : 0 < k) : (digitsOf n).length ≤ k ↔ n < 10 ^ k :=
  Nat.length_toDigits_le_iff (by decide) hk

theorem lt_pow_length_digitsOf (n : ℕ) : n < 10 ^ (digitsOf n).length :=
  (length_digitsOf_le_iff (length_digitsOf_pos n)).mp le_rfl

theorem pow_length_digitsOf_le {n : ℕ} (h : 0 < n) : 10 ^ ((digitsOf n).length - 1) ≤ n := by
  rcases Nat.eq_zero_or_pos ((digitsOf n).length - 1) with hone | hmore
  · rwa [hone, Nat.pow_zero]
  · by_contra hlt
    have := (length_digitsOf_le_iff hmore).mpr (not_le.mp hlt)
    omega

/-- How many digits there are, from the powers of ten that the number is between. -/
theorem length_digitsOf_eq {n count : ℕ} (hlow : 10 ^ count ≤ n) (hhigh : n < 10 ^ (count + 1)) :
    (digitsOf n).length = count + 1 := by
  refine le_antisymm ((length_digitsOf_le_iff (Nat.succ_pos count)).mpr hhigh) ?_
  have hpower := hlow.trans_lt (lt_pow_length_digitsOf n)
  exact (Nat.pow_lt_pow_iff_right (by decide)).mp hpower

/-- Only zero begins with a zero. -/
theorem head?_digitsOf {n : ℕ} (h : 0 < n) : (digitsOf n).head? ≠ some '0' := by
  induction n using Nat.strongRecOn with
  | _ n ih =>
      rw [digitsOf_eq]
      split
      · have hsmall : ∀ n < 10, 0 < n → n.digitChar ≠ '0' := by decide
        simpa using hsmall n ‹_› h
      · rw [List.head?_append, Option.or_of_isSome (by simp [digitsOf_ne_nil])]
        exact ih (n / 10) (by omega) (by omega)

/-- A number has a first digit, which is zero for zero alone. -/
theorem exists_digitsOf_cons (n : ℕ) :
    ∃ d ds, digitsOf n = d :: ds ∧ Text.isPlainDigit d = true ∧ (0 < n → d ≠ '0') := by
  obtain ⟨d, ds, hds⟩ := List.exists_cons_of_ne_nil (digitsOf_ne_nil n)
  refine ⟨d, ds, hds, isPlainDigit_of_mem_digitsOf (by rw [hds]; simp), fun hn hd => ?_⟩
  exact head?_digitsOf hn (by rw [hds, hd]; rfl)

end Decimal

end Abacus
