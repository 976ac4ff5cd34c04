import Mathlib.Algebra.Order.Floor.Semifield
import Mathlib.Data.Rat.Floor
import Abacus.Display
import Abacus.Proofs.Decimal.Text

/-!
# Abacus — Decimal — Rounding to a place

Rounding to a multiple of a power of ten takes a half away from zero (`halfAway`).  A fraction
rounded to a place has the value that this gives (`toRat_roundedTo`).  So has one rounded to a
number of digits, and it has this number of digits; where rounding carries into the next power of
ten, the leading digit moves up (`toDigits_spec`).
-/

namespace Abacus

/-- A rational to the nearest multiple of `10 ^ place`, a half going away from zero. -/
def halfAway (place : ℤ) (x : ℚ) : ℚ :=
  (if x < 0 then -1 else 1) * (⌊|x| / 10 ^ place + 1 / 2⌋₊ * 10 ^ place)

section HalfAway
variable {place : ℤ} {x : ℚ}

/-- For what is not negative, half away from zero is half up. -/
theorem halfAway_of_nonneg (hx : 0 ≤ x) :
    halfAway place x = ⌊x / 10 ^ place + 1 / 2⌋₊ * 10 ^ place := by
  rw [halfAway, if_neg (not_lt.mpr hx), one_mul, abs_of_nonneg hx]

theorem halfAway_zero : halfAway place 0 = 0 := by
  have hfloor : ⌊(1 / 2 : ℚ)⌋₊ = 0 := Nat.floor_eq_zero.mpr (by norm_num)
  rw [halfAway_of_nonneg le_rfl, zero_div, zero_add, hfloor, Nat.cast_zero, zero_mul]

/-- Either sign is rounded in the same way. -/
theorem halfAway_signed (negative : Bool) (hx : 0 ≤ x) :
    halfAway place ((if negative then -1 else 1) * x) =
      (if negative then -1 else 1) * halfAway place x := by
  cases negative with
  | false => simp
  | true =>
      rcases hx.eq_or_lt with rfl | hpos
      · rw [mul_zero, halfAway_zero, mul_zero]
      · rw [halfAway_of_nonneg hx, halfAway, if_pos rfl, neg_one_mul, if_pos (neg_lt_zero.mpr hpos),
          abs_neg, abs_of_pos hpos]

example : halfAway (-1) (-1 / 4) = -3 / 10 := by decide +kernel

/-- Half a unit below a multiple rounding begins to reach it. -/
theorem le_halfAway_iff (hx : 0 ≤ x) (n : ℕ) :
    n * 10 ^ place ≤ halfAway place x ↔ (n - 1 / 2) * 10 ^ place ≤ x := by
  have hp : (0 : ℚ) < 10 ^ place := by positivity
  rw [halfAway_of_nonneg hx, mul_le_mul_iff_left₀ hp, Nat.cast_le, Nat.le_floor_iff (by positivity),
    ← sub_le_iff_le_add, le_div_iff₀ hp]

/-- What is not above a multiple is not rounded to one above it. -/
theorem halfAway_le (hx : 0 ≤ x) {n : ℕ} (h : x ≤ n * 10 ^ place) :
    halfAway place x ≤ n * 10 ^ place := by
  have hp : (0 : ℚ) < 10 ^ place := by positivity
  rw [halfAway_of_nonneg hx]
  gcongr
  rw [← div_le_iff₀ hp] at h
  refine Nat.lt_succ_iff.mp ((Nat.floor_lt (by positivity)).mpr ?_)
  push_cast
  linarith

end HalfAway

/-- The division rounds half up. -/
theorem divRoundUp_eq {num den : ℕ} (hden : 0 < den) :
    divRoundUp num den = ⌊(num : ℚ) / den + 1 / 2⌋₊ := by
  have hd : (den : ℚ) ≠ 0 := by positivity
  have hratio : (num : ℚ) / den + 1 / 2 = (2 * num + den : ℕ) / (2 * den : ℕ) := by
    push_cast
    field_simp
  rw [hratio, Nat.floor_div_eq_div]
  rfl

namespace Decimal

/-- A power of ten as so many units of a lesser one. -/
theorem pow_mul_zpow (count : ℕ) (place : ℤ) :
    ((10 ^ count : ℕ) : ℚ) * 10 ^ place = 10 ^ (place + count) := by
  rw [zpow_add₀ (by norm_num), zpow_natCast, mul_comm]
  push_cast
  rfl

section Rounding
variable {num den : ℕ}

theorem exponent_roundedTo (num den : ℕ) (place : ℤ) : (roundedTo num den place).exponent = place :=
  rfl

/-- A fraction rounded to a place. -/
theorem toRat_roundedTo (num : ℕ) (hden : 0 < den) (place : ℤ) :
    (roundedTo num den place).toRat = halfAway place (num / den) := by
  rw [halfAway_of_nonneg (by positivity), toRat, roundedTo, divRoundUp_eq (by positivity)]
  have hscaled : ((num * 10 ^ (-place).toNat : ℕ) : ℚ) / (den * 10 ^ place.toNat : ℕ) =
      num / den / 10 ^ place := scaled_ratio (by decide) num den place
  rw [hscaled]

/-- The leading place is the one of the greatest power of ten that is not above the fraction. -/
theorem leadingPlace_spec (hnum : 0 < num) (hden : 0 < den) :
    (10 : ℚ) ^ leadingPlace num den ≤ num / den ∧
      (num : ℚ) / den < 10 ^ (leadingPlace num den + 1) := by
  have hd : (0 : ℚ) < den := by exact_mod_cast hden
  have hn : (0 : ℚ) < num := by exact_mod_cast hnum
  unfold leadingPlace
  split_ifs with hle
  · -- from one on the digits of the whole part count the places
    have hwhole : 0 < num / den := Nat.div_pos hle hden
    have hlow := (Nat.le_div_iff_mul_le hden).mp (pow_length_digitsOf_le hwhole)
    have hhigh := (Nat.div_lt_iff_lt_mul hden).mp (lt_pow_length_digitsOf (num / den))
    have hlength := length_digitsOf_pos (num / den)
    generalize (digitsOf (num / den)).length = count at hlow hhigh hlength
    rw [le_div_iff₀ hd, div_lt_iff₀ hd, sub_add_cancel, ← Nat.cast_pred hlength, zpow_natCast,
      zpow_natCast]
    exact ⟨by exact_mod_cast hlow, by exact_mod_cast hhigh⟩
  · -- below one the digits of the inverse do, and a power of ten itself is the last with them
    have hwhole : 0 < (den - 1) / num := Nat.div_pos (by omega) hnum
    have hlow := (Nat.le_div_iff_mul_le hnum).mp (pow_length_digitsOf_le hwhole)
    have hhigh := (Nat.div_lt_iff_lt_mul hnum).mp (lt_pow_length_digitsOf ((den - 1) / num))
    have hlength := length_digitsOf_pos ((den - 1) / num)
    generalize (digitsOf ((den - 1) / num)).length = count at hlow hhigh hlength
    have hplace : -(count : ℤ) + 1 = -((count - 1 : ℕ) : ℤ) := by omega
    rw [hplace, zpow_neg, zpow_neg, zpow_natCast, zpow_natCast, inv_eq_one_div, inv_eq_one_div,
      div_le_div_iff₀ (by positivity) hd, div_lt_div_iff₀ hd (by positivity), one_mul,
      mul_comm (num : ℚ), mul_comm (num : ℚ)]
    refine ⟨?_, ?_⟩
    · exact_mod_cast (by omega : den ≤ 10 ^ count * num)
    · exact_mod_cast (by omega : 10 ^ (count - 1) * num < den)

/-- A fraction rounded behind its leading place: as many digits as wanted, or the power of ten with
one more. -/
theorem digits_roundedTo_bounds (hnum : 0 < num) (hden : 0 < den) (count : ℕ) :
    10 ^ count ≤ (roundedTo num den (leadingPlace num den - count)).digits ∧
      (roundedTo num den (leadingPlace num den - count)).digits ≤ 10 ^ (count + 1) := by
  obtain ⟨hle, hlt⟩ := leadingPlace_spec hnum hden
  have hvalue := toRat_roundedTo num hden (leadingPlace num den - count)
  have hx : (0 : ℚ) ≤ num / den := by positivity
  have hp : (0 : ℚ) < 10 ^ (leadingPlace num den - count) := by positivity
  have hlow := pow_mul_zpow count (leadingPlace num den - count)
  have hhigh := pow_mul_zpow (count + 1) (leadingPlace num den - count)
  rw [sub_add_cancel] at hlow
  rw [Nat.cast_add, Nat.cast_one, ← add_assoc, sub_add_cancel] at hhigh
  rw [toRat] at hvalue
  refine ⟨?_, ?_⟩
  · rw [← Nat.cast_le (α := ℚ), ← mul_le_mul_iff_left₀ hp]
    calc ((10 ^ count : ℕ) : ℚ) * 10 ^ (leadingPlace num den - count)
        ≤ halfAway (leadingPlace num den - count) (num / den) := by
          refine (le_halfAway_iff hx _).mpr (le_trans ?_ (hlow.le.trans hle))
          gcongr
          linarith
      _ = _ := hvalue.symm
  · rw [← Nat.cast_le (α := ℚ), ← mul_le_mul_iff_left₀ hp]
    calc _ = halfAway (leadingPlace num den - count) (num / den) := hvalue
      _ ≤ _ := halfAway_le hx (hlt.le.trans hhigh.ge)

/-- A fraction rounded to a number of digits. -/
theorem toDigits_spec (hnum : 0 < num) (hden : 0 < den) (count : ℕ) :
    0 < (toDigits num den count).digits ∧
      (toDigits num den count).toRat = halfAway (leadingPlace num den - count) (num / den) ∧
      (digitsOf (toDigits num den count).digits).length = count + 1 ∧
      (toDigits num den count).leadingExponent = leadingPlace num den +
        if (toDigits num den count).toRat = 10 ^ (leadingPlace num den + 1) then 1 else 0 := by
  obtain ⟨hlow, hhigh⟩ := digits_roundedTo_bounds hnum hden count
  have hvalue := toRat_roundedTo num hden (leadingPlace num den - count)
  have hp : (0 : ℚ) < 10 ^ (leadingPlace num den - count) := by positivity
  have hnext := pow_mul_zpow (count + 1) (leadingPlace num den - count)
  rw [Nat.cast_add, Nat.cast_one, ← add_assoc, sub_add_cancel] at hnext
  have htoDigits : toDigits num den count =
      if (roundedTo num den (leadingPlace num den - count)).digits = 10 ^ (count + 1) then
        ⟨10 ^ count, leadingPlace num den - count + 1⟩
      else roundedTo num den (leadingPlace num den - count) := rfl
  have hexponent := exponent_roundedTo num den (leadingPlace num den - count)
  rw [htoDigits]
  generalize roundedTo num den (leadingPlace num den - count) = d at *
  generalize leadingPlace num den = place at *
  by_cases hcarry : d.digits = 10 ^ (count + 1)
  · -- the next power of ten has its one digit a place further up
    have hpower : (⟨10 ^ count, place - count + 1⟩ : Decimal).toRat = 10 ^ (place + 1) := by
      rw [toRat, pow_mul_zpow]
      congr 1
      ring
    have hlength := length_digitsOf_eq (le_refl (10 ^ count))
      (Nat.pow_lt_pow_right (by decide) (Nat.lt_succ_self count))
    rw [if_pos hcarry, if_pos hpower, ← hvalue, hpower, toRat, hcarry, hexponent, hnext]
    refine ⟨by positivity, rfl, hlength, ?_⟩
    rw [leadingExponent, hlength]
    push_cast
    ring
  · have hlength := length_digitsOf_eq hlow (lt_of_le_of_ne hhigh hcarry)
    have hpower : d.toRat ≠ 10 ^ (place + 1) := by
      rw [toRat, hexponent, ← hnext]
      exact fun heq => hcarry (by exact_mod_cast mul_right_cancel₀ hp.ne' heq)
    rw [if_neg hcarry, if_neg hpower]
    refine ⟨lt_of_lt_of_le (by positivity) hlow, hvalue, hlength, ?_⟩
    rw [leadingExponent, hlength, hexponent]
    push_cast
    ring

end Rounding

end Decimal

end Abacus
