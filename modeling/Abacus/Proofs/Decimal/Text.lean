import Abacus.Decimal.Numeral
import Abacus.Expression.Scan
import Abacus.Proofs.Decimal.Digits
import Abacus.Proofs.Decimal.Shortest

/-!
# Abacus — Decimal — Texts of decimals

A decimal that is written in full is read with the value it has (`fixed?_positional`).  One that is
written with an exponent begins with a numeral, which the letter ends (`exists_scientific`).
-/

namespace Abacus.Decimal

/-! ### Reading digits -/

/-- Digits alone are a whole number. -/
theorem fixed?_of_digits {ds : List Char} (h : ∀ c ∈ ds, Text.isPlainDigit c = true)
    (hne : ds ≠ []) : fixed? ds = some ⟨ofDigits ds, 0⟩ := by
  have htake : ds.takeWhile Text.isPlainDigit = ds := List.takeWhile_eq_self_iff.mpr h
  have hdrop : ds.dropWhile Text.isPlainDigit = [] := List.dropWhile_eq_nil_iff.mpr h
  simp [fixed?, htake, hdrop, hne]

/-- A point moves the exponent by the digits behind it. -/
theorem fixed?_of_point {ws ps : List Char} (hws : ∀ c ∈ ws, Text.isPlainDigit c = true)
    (hps : ∀ c ∈ ps, Text.isPlainDigit c = true) (hne : ps ≠ []) :
    fixed? (ws ++ '.' :: ps) = some ⟨ofDigits (ws ++ ps), -(ps.length : ℤ)⟩ := by
  have hpoint : ∀ c ∈ ('.' :: ps).head?, Text.isPlainDigit c = false := by
    rintro _ ⟨⟩
    rfl
  have hall : ps.all Text.isPlainDigit = true := List.all_eq_true.mpr hps
  simp [fixed?, takeWhile_isPlainDigit hws hpoint, dropWhile_isPlainDigit hws hpoint, hall, hne]

/-- Zeros at the end multiply by ten. -/
theorem ofDigits_append_zeros (ds : List Char) (k : ℕ) :
    ofDigits (ds ++ List.replicate k '0') = ofDigits ds * 10 ^ k := by
  rw [ofDigits, Nat.ofDigitChars_append, Nat.ofDigitChars_replicate_zero, Nat.mul_comm]
  rfl

theorem ofDigits_zeros_append (k : ℕ) (ds : List Char) :
    ofDigits (List.replicate k '0' ++ ds) = ofDigits ds := by
  rw [ofDigits, Nat.ofDigitChars_append, Nat.ofDigitChars_replicate_zero, Nat.mul_zero]
  rfl

/-! ### Writing in full -/

/-- Digits with a point put into them, and with zeros before them if they are too few. -/
theorem fixed?_withPoint {ds : List Char} (h : ∀ c ∈ ds, Text.isPlainDigit c = true) (hne : ds ≠ [])
    (places : ℕ) : fixed? (withPoint ds places) = some ⟨ofDigits ds, -(places : ℤ)⟩ := by
  unfold withPoint
  split_ifs with hplaces
  · subst hplaces
    exact fixed?_of_digits h hne
  · simp only
    generalize hpadded : List.replicate (places + 1 - ds.length) '0' ++ ds = padded
    have hpadded_digits : ∀ c ∈ padded, Text.isPlainDigit c = true :=
      hpadded ▸ isPlainDigit_zeros_append h _
    have hlength : places + 1 ≤ padded.length := by
      rw [← hpadded, List.length_append, List.length_replicate]
      omega
    have hdrop : (padded.drop (padded.length - places)).length = places := by
      rw [List.length_drop]
      omega
    rw [fixed?_of_point (fun c hc => hpadded_digits c (List.mem_of_mem_take hc))
        (fun c hc => hpadded_digits c (List.mem_of_mem_drop hc))
        (List.ne_nil_of_length_pos (by omega)),
      List.take_append_drop, hdrop, ← hpadded, ofDigits_zeros_append]

/-- A decimal in full is read with the value it has. -/
theorem fixed?_positional (d : Decimal) :
    ∃ d', fixed? d.positional = some d' ∧ d'.toRat = d.toRat := by
  have hdigits := isPlainDigit_append_zeros
    (fun _ => isPlainDigit_of_mem_digitsOf (n := d.digits)) d.exponent.toNat
  refine ⟨_, fixed?_withPoint hdigits (by simp [digitsOf_ne_nil]) _, ?_⟩
  rw [ofDigits_append_zeros, ofDigits_digitsOf, toRat, toRat]
  have h := zpow_toNat 10 (by decide) d.exponent
  push_cast at h ⊢
  rw [h, zpow_neg, zpow_natCast]
  field_simp

/-! ### Writing with an exponent -/

/-- With an exponent, a decimal is a numeral below ten, the letter, and a whole number with its
sign. -/
theorem exists_scientific (width : ℕ) (d : Decimal) :
    ∃ ds d' rest, d.scientific width = ds ++ 'e' :: rest ∧ fixed? ds = some d' ∧
      d'.toRat < 10 ∧
      ∀ c ∈ rest, Text.isPlainDigit c = true ∨ Token.isSign c = true := by
  refine ⟨_, _, _, rfl, fixed?_withPoint (fun _ => isPlainDigit_of_mem_digitsOf)
    (digitsOf_ne_nil d.digits) _, ?_, ?_⟩
  · have hlength := length_digitsOf_pos d.digits
    have hlt : (d.digits : ℚ) < 10 * 10 ^ ((digitsOf d.digits).length - 1) := by
      rw [← pow_succ', Nat.sub_add_cancel hlength]
      exact_mod_cast lt_pow_length_digitsOf d.digits
    rw [toRat, ofDigits_digitsOf, zpow_neg, zpow_natCast, ← div_eq_mul_inv,
      div_lt_iff₀ (by positivity)]
    exact hlt
  · intro c hc
    rcases List.mem_cons.mp hc with rfl | hc
    · right
      split <;> rfl
    · exact .inl (isPlainDigit_zeros_append (fun _ => isPlainDigit_of_mem_digitsOf) _ c hc)

end Abacus.Decimal
