import Abacus.Proofs.Binary64.Nearest
import Abacus.Proofs.Decimal.Rounding
import Abacus.Proofs.Display.Canonical

/-!
# Abacus — Display — Rounded results

A number that is not whole is shown rounded.  From `1e-6` to below `1e12` it is rounded to places,
which goes by way of a decimal and of the number nearest to it: that number is shown in full
(`exists_shownInFull`), its shortest digits need no more places than the decimal has, and they are
those of the decimal if there are no more than fifteen (`IsFullText.toRat_eq`), since the last bit
of the number is less than the unit of the last of these.  So no second rounding shows in the text
(`displayRounded_fixed`).  Any other size is rounded to digits, and its text has these digits
(`displayRounded_exponent`).
-/

namespace Abacus

namespace Decimal

/-- The rational that an optionally signed numeral writes. -/
def value? (cs : List Char) : Option ℚ :=
  let (negative, ds) := splitSign cs
  (scientific? ds).map fun d => (if negative then -1 else 1) * d.toRat

/-- The value of a text behind a sign is that of the text, with that sign. -/
theorem value?_withSign {cs : List Char} {d : Decimal} (hunsigned : splitSign cs = (false, cs))
    (h : scientific? cs = some d) (negative : Bool) :
    value? (withSign negative cs) = some ((if negative then -1 else 1) * d.toRat) := by
  cases negative with
  | false => simp [withSign, value?, hunsigned, h]
  | true => simp [withSign, value?, splitSign, h]

end Decimal

namespace Binary64

/-! ### The sizes that are shown without an exponent -/

/-- The least size that is too large to be rounded to places, as it is kept. -/
theorem roundedBelow_eq :
    roundedBelow = .finite false 8192000000000000 (-13) (by decide) := by
  decide +kernel

theorem ten_pow_twelve_lt_overflowFrom : (10 : ℚ) ^ (12 : ℤ) < overflowFrom := by
  calc (10 : ℚ) ^ (12 : ℤ) ≤ 2 ^ (40 : ℤ) := by norm_num
    _ ≤ 2 ^ (1023 : ℤ) := zpow_le_zpow_right₀ (by norm_num) (by norm_num)
    _ < overflowFrom := lt_overflowFrom

section Size
variable {x : ℚ} {places : ℕ}

/-- The bound in units of the last place. -/
theorem ten_pow_twelve_eq (places : ℕ) :
    ((10 ^ (places + 12) : ℕ) : ℚ) * 10 ^ (-places : ℤ) = 10 ^ (12 : ℤ) := by
  rw [Decimal.pow_mul_zpow]
  congr 1
  omega

/-- Rounding to places gives zero or no less than `1e-6`, and no more than `1e12`. -/
theorem halfAway_places_bounds (hplaces : places ≤ 12) (hlow : fullFrom.toRat ≤ x)
    (hhigh : x ≤ 10 ^ (12 : ℤ)) :
    (halfAway (-places) x = 0 ∨ (10 : ℚ) ^ (-6 : ℤ) ≤ halfAway (-places) x) ∧
      halfAway (-places) x ≤ 10 ^ (12 : ℤ) := by
  -- the number shown as `1e-6` is a little less than this
  have hsmall : (10 : ℚ) ^ (-6 : ℤ) - 1 / 2 * 10 ^ (-12 : ℤ) ≤ x := by
    refine le_trans ?_ hlow
    simp only [fullFrom_eq, toRat, Bool.false_eq_true, if_false, one_mul]
    norm_num
  have hx : 0 ≤ x := le_trans (by norm_num) hsmall
  refine ⟨?_, ?_⟩
  · rcases Nat.lt_or_ge places 6 with hfew | hmany
    · rw [halfAway_of_nonneg hx]
      rcases Nat.eq_zero_or_pos ⌊x / 10 ^ (-places : ℤ) + 1 / 2⌋₊ with hzero | hpos
      · left
        rw [hzero, Nat.cast_zero, zero_mul]
      · right
        have hone : (1 : ℚ) ≤ ⌊x / 10 ^ (-places : ℤ) + 1 / 2⌋₊ := by exact_mod_cast hpos
        calc (10 : ℚ) ^ (-6 : ℤ) ≤ 10 ^ (-places : ℤ) :=
              zpow_le_zpow_right₀ (by norm_num) (by omega)
          _ ≤ _ := le_mul_of_one_le_left (by positivity) hone
    · right
      have hunits := Decimal.pow_mul_zpow (places - 6) (-places)
      rw [show -(places : ℤ) + (places - 6 : ℕ) = -6 by omega] at hunits
      rw [← hunits, le_halfAway_iff hx, sub_mul, hunits]
      refine le_trans ?_ hsmall
      gcongr
      · norm_num
      · omega
  · rw [← ten_pow_twelve_eq places] at hhigh ⊢
    exact halfAway_le hx hhigh

/-- What is rounded to no less than `1e-6` and no more than `1e12` is read as a number that is shown
without an exponent. -/
theorem exists_shownInFull (hlow : (10 : ℚ) ^ (-6 : ℤ) ≤ x) (hhigh : x ≤ 10 ^ (12 : ℤ)) :
    ∃ m e, ∃ hc : Canonical m e, 2 ^ 52 ≤ m ∧ InReach m e x ∧
      (finite false m e hc).IsShownInFull := by
  have hpos : 0 < x := lt_of_lt_of_le (by positivity) hlow
  obtain ⟨m, e, hc, hreach⟩ := exists_inReach hpos.ne' (by
    rw [abs_of_pos hpos]
    exact hhigh.trans_lt ten_pow_twelve_lt_overflowFrom)
  rw [abs_of_pos hpos] at hreach
  have hfull : 2 ^ 52 ≤ m := by
    refine hreach.full hc (le_trans ?_ hlow)
    calc (2 : ℚ) ^ (-1022 : ℤ) ≤ 2 ^ (-20 : ℤ) := zpow_le_zpow_right₀ (by norm_num) (by norm_num)
      _ ≤ 10 ^ (-6 : ℤ) := by norm_num
  refine ⟨m, e, hc, hfull, hreach, .inr ⟨?_, ?_⟩⟩
  · rw [Bool.eq_false_iff, fullFrom_eq, abs, Ne, lt_iff, not_lt]
    simp only [toRat, Bool.false_eq_true, if_false, one_mul]
    refine hreach.le_of_le hc (by decide) (le_trans ?_ hlow)
    norm_num
  · rw [fullBelow_eq, abs, lt_iff]
    simp only [toRat, Bool.false_eq_true, if_false, one_mul]
    have hone : (1 : ℚ) ≤ m := by exact_mod_cast le_trans (by norm_num) hfull
    have hp : (0 : ℚ) < 2 ^ e := by positivity
    have hhalf := hreach.bounds.1
    calc (m * 2 ^ e : ℚ) ≤ 2 * ((m - 1 / 2) * 2 ^ e) := by nlinarith
      _ ≤ 2 * 10 ^ (12 : ℤ) := by gcongr; exact hhalf.trans hhigh
      _ < _ := by norm_num

end Size

/-- Up to fifteen digits the text writes the very decimal that was rounded to the number. -/
theorem IsFullText.toRat_eq {m : ℕ} {e : ℤ} {ws fs : List Char} {d : Decimal}
    (h : IsFullText m e ws fs d) (hfull : 2 ^ 52 ≤ m) {k : ℕ} {g : ℤ} (hg : g ≤ 0)
    (hk : k < 10 ^ 15) (hreach : InReach m e (k * 10 ^ g)) : d.toRat = k * 10 ^ g := by
  obtain ⟨-, j, hj⟩ := h.coarsest hg hreach
  have hinReach := h.inReach
  rw [hj] at hinReach ⊢
  obtain ⟨hlow, hhigh⟩ := hreach.bounds
  obtain ⟨hlow', hhigh'⟩ := hinReach.bounds
  have hp : (0 : ℚ) < 10 ^ g := by positivity
  have hm : (2 ^ 52 : ℚ) ≤ m := by exact_mod_cast hfull
  have hk' : (k : ℚ) < 10 ^ 15 := by exact_mod_cast hk
  -- the last bit is less than the unit of the fifteen digits
  have hbit : (2 : ℚ) ^ e < 10 ^ g := by
    have hp2 : (0 : ℚ) < 2 ^ e := by positivity
    nlinarith
  have hle : (j : ℚ) < k + 1 := by nlinarith
  have hge : (k : ℚ) < j + 1 := by nlinarith
  have hlt : j < k + 1 := by exact_mod_cast hle
  have hgt : k < j + 1 := by exact_mod_cast hge
  rw [show j = k by omega]

/-! ### Rounded to places -/

/-- A text of the rational `x` without an exponent: it has no more than so many places, none that
can be left out and no minus before a zero; it is read as the number that `x` rounds to, and it is
exact if fifteen digits are enough for `x`. -/
structure IsFixedText (places : ℕ) (x : ℚ) (negative : Bool) (ws fs : List Char) : Prop where
  whole : Decimal.IsWhole ws
  fraction : Decimal.IsFraction fs
  few : fs.tail.length ≤ places
  last : fs.getLast? ≠ some '0'
  zero : withSign negative (ws ++ fs) ≠ ['-', '0']
  read : ofScientific? (withSign negative (ws ++ fs)) = some (ofRat x)
  exact : (∃ j g : ℤ, |j| < 10 ^ 15 ∧ x = j * 10 ^ g) →
    Decimal.value? (withSign negative (ws ++ fs)) = some x

theorem isFixedText_zero (places : ℕ) : IsFixedText places 0 false ['0'] [] where
  whole := .zero
  fraction := .none
  few := Nat.zero_le _
  last := by simp
  zero := by decide
  read := by decide
  exact _ := by decide +kernel

/-- Not too large a decimal, counted in units of a place behind the point. -/
theorem exists_units_of_digits {x : ℚ} {j g : ℤ} (hx : |x| ≤ 10 ^ (12 : ℤ)) (hj : |j| < 10 ^ 15)
    (h : x = j * 10 ^ g) : ∃ (k : ℕ) (g' : ℤ), g' ≤ 0 ∧ k < 10 ^ 15 ∧ |x| = k * 10 ^ g' := by
  have hp : (0 : ℚ) < 10 ^ g := by positivity
  have hsize : |x| = j.natAbs * 10 ^ g := by
    rw [h, abs_mul, abs_of_pos hp, Nat.cast_natAbs, Int.cast_abs]
  rcases le_or_gt g 0 with hg | hg
  · refine ⟨j.natAbs, g, hg, ?_, hsize⟩
    rw [Int.abs_eq_natAbs] at hj
    exact_mod_cast hj
  · obtain ⟨k, hk⟩ : ∃ k : ℕ, (j.natAbs * 10 ^ g : ℚ) = k * 10 ^ (0 : ℤ) :=
      exists_units (by decide) _ hg.le
    refine ⟨k, 0, le_rfl, ?_, hsize.trans hk⟩
    rw [hsize, hk, zpow_zero, mul_one] at hx
    have : (k : ℚ) < (10 ^ 15 : ℕ) := lt_of_le_of_lt hx (by norm_num)
    exact_mod_cast this

/-- A decimal with so many places, rounded to a number and shown. -/
theorem exists_isFixedText {q : Decimal} {places : ℕ} (hq : q.exponent = -places)
    (hlow : (10 : ℚ) ^ (-6 : ℤ) ≤ q.toRat) (hhigh : q.toRat ≤ 10 ^ (12 : ℤ)) :
    ∃ ws fs, ∀ s, (Decimal.nearest s q).display = String.ofList (withSign s (ws ++ fs)) ∧
      IsFixedText places ((if s then -1 else 1) * q.toRat) s ws fs := by
  have hpos : 0 < q.toRat := lt_of_lt_of_le (by positivity) hlow
  obtain ⟨m, e, hc, hfull, hreach, hshown⟩ := exists_shownInFull hlow hhigh
  have hm : 0 < m := lt_of_lt_of_le (by positivity) hfull
  obtain ⟨ws, fs, d, hdisplay, htext, -⟩ := exists_isFullText hm hshown
  have hscientific : Decimal.scientific? (ws ++ fs) = some d := by
    rw [Decimal.scientific?_of_unmarked (htext.whole.isNumeric_append htext.fraction), htext.read]
  have hunsigned := Decimal.splitSign_of_isWhole htext.whole fs
  refine ⟨ws, fs, fun s => ?_⟩
  have hsign : decide ((if s then -1 else 1) * q.toRat < 0) = s := by
    cases s <;> simp [hpos, hpos.le]
  have hsize := abs_signed s hpos.le
  have hne : (if s then -1 else 1) * q.toRat ≠ 0 := by
    rw [← abs_pos, hsize]
    exact hpos
  have hread := ofScientific?_withSign hunsigned hscientific s
  rw [Decimal.nearest, ofDecimal_of_inReach hc hm htext.inReach] at hread
  refine ⟨?_, htext.whole, htext.fraction, ?_, htext.last, fun hzero => ?_, ?_, ?_⟩
  · rw [Decimal.nearest, ofDecimal_of_inReach hc hm hreach, hdisplay]
  · have hplaces : InReach m e (q.digits * 10 ^ (-places : ℤ)) := by
      rwa [← hq]
    have := (htext.coarsest (by omega) hplaces).1
    omega
  · -- a minus before a zero is read as the negative zero
    rw [hzero] at hread
    have hnegative : some (finite true 0 (-1074) (by decide)) = some (finite s m e hc) := hread
    injection hnegative with hnegative
    injection hnegative with _ hmantissa
    omega
  · rw [hread, ofRat_of_inReach hc hne (by rwa [hsize]), hsign]
  · rintro ⟨j, g, hj, hx⟩
    obtain ⟨k, g', hg', hk, hunits⟩ := exists_units_of_digits (by rwa [hsize]) hj hx
    rw [hsize] at hunits
    rw [Decimal.value?_withSign hunsigned hscientific,
      htext.toRat_eq hfull hg' hk (by rwa [← hunits]), ← hunits]

/-- The texts of a rounded decimal of either sign. -/
theorem exists_isFixedText_signed {q : Decimal} {places : ℕ} (hq : q.exponent = -places)
    (hlow : q.toRat = 0 ∨ (10 : ℚ) ^ (-6 : ℤ) ≤ q.toRat) (hhigh : q.toRat ≤ 10 ^ (12 : ℤ))
    (s : Bool) : ∃ negative ws fs,
      (Decimal.nearest s q).display = String.ofList (withSign negative (ws ++ fs)) ∧
      IsFixedText places ((if s then -1 else 1) * q.toRat) negative ws fs ∧
      ((Decimal.nearest (!s) q).display = String.ofList (withSign (!negative) (ws ++ fs)) ∨
        (Decimal.nearest s q).display = "0" ∧ (Decimal.nearest (!s) q).display = "0") := by
  rcases hlow with hzero | hlow
  · have hdigits : q.digits = 0 := by
      have hp : (10 : ℚ) ^ q.exponent ≠ 0 := by positivity
      exact_mod_cast (mul_eq_zero.mp hzero).resolve_right hp
    have hshown (t : Bool) : (Decimal.nearest t q).display = "0" := by
      rw [Decimal.nearest, hdigits]
      exact display_of_isZero rfl
    refine ⟨false, ['0'], [], hshown s, ?_, .inr ⟨hshown s, hshown (!s)⟩⟩
    rw [hzero, mul_zero]
    exact isFixedText_zero places
  · obtain ⟨ws, fs, htexts⟩ := exists_isFixedText hq hlow hhigh
    exact ⟨s, ws, fs, (htexts s).1, (htexts s).2, .inl (htexts (!s)).1⟩

section Finite
variable {s : Bool} {m : ℕ} {e : ℤ} {hc : Canonical m e} {p : Precision}

/-- Rounding the quotient that stands for a number is rounding the number. -/
theorem toRat_roundedTo_finite (m : ℕ) (e place : ℤ) :
    (Decimal.roundedTo (m * 2 ^ e.toNat) (2 ^ (-e).toNat) place).toRat =
      halfAway place (m * 2 ^ e) := by
  rw [Decimal.toRat_roundedTo _ (by positivity), binary_ratio]

/-- The sizes that are rounded to places. -/
theorem size_bounds (hlow : (finite s m e hc).abs.lt fullFrom = false)
    (hhigh : (finite s m e hc).abs.lt roundedBelow = true) :
    fullFrom.toRat ≤ m * 2 ^ e ∧ (m * 2 ^ e : ℚ) ≤ 10 ^ (12 : ℤ) := by
  rw [Bool.eq_false_iff, fullFrom_eq, abs, Ne, lt_iff, not_lt, ← fullFrom_eq] at hlow
  rw [roundedBelow_eq, abs, lt_iff] at hhigh
  simp only [toRat, Bool.false_eq_true, if_false, one_mul] at hlow hhigh
  refine ⟨hlow, hhigh.le.trans ?_⟩
  norm_num

/-- A number that is very large or very small is rounded to significant digits. -/
theorem displayRounded_of_digits (hfraction : (finite s m e hc).isIntegral = false)
    (hsize : (finite s m e hc).abs.lt roundedBelow = false ∨
      (finite s m e hc).abs.lt fullFrom = true) :
    (finite s m e hc).displayRounded p = String.ofList (withSign s ((Decimal.toDigits
      (m * 2 ^ e.toNat) (2 ^ (-e).toNat) (p.places - 1)).scientific 1)) := by
  simp only [displayRounded, hfraction, Bool.false_eq_true, if_false]
  rw [if_pos]
  simpa using hsize

/-- A decimal that is not too large has few enough digits. -/
theorem quantize?_eq {num den places : ℕ} (hplaces : places ≤ 12)
    (h : (Decimal.roundedTo num den (-places)).toRat ≤ 10 ^ (12 : ℤ)) :
    Decimal.quantize? num den (-places) = some (Decimal.roundedTo num den (-places)) := by
  have hp : (0 : ℚ) < 10 ^ (-places : ℤ) := by positivity
  rw [← ten_pow_twelve_eq places, Decimal.toRat, Decimal.exponent_roundedTo,
    mul_le_mul_iff_left₀ hp, Nat.cast_le] at h
  refine if_pos ((Decimal.length_digitsOf_le_iff (by decide)).mpr (h.trans_lt ?_))
  exact Nat.pow_lt_pow_right (by decide) (by rw [Decimal.contextDigits]; omega)

/-- Of the sizes that are rounded to places, no decimal is refused. -/
theorem fixedText?_eq (hlow : (finite s m e hc).abs.lt fullFrom = false)
    (hhigh : (finite s m e hc).abs.lt roundedBelow = true) {places : ℕ} (hplaces : places ≤ 12) :
    (finite s m e hc).fixedText? places = some (Decimal.nearest s
      (Decimal.roundedTo (m * 2 ^ e.toNat) (2 ^ (-e).toNat) (-places))).display := by
  obtain ⟨hle, hge⟩ := size_bounds hlow hhigh
  have hmax := (halfAway_places_bounds hplaces hle hge).2
  rw [← toRat_roundedTo_finite] at hmax
  rw [fixedText?, quantize?_eq hplaces hmax]
  rfl

/-- Any other is rounded to places, and what it is then is shown in full. -/
theorem displayRounded_of_places (hfraction : (finite s m e hc).isIntegral = false)
    (hlow : (finite s m e hc).abs.lt fullFrom = false)
    (hhigh : (finite s m e hc).abs.lt roundedBelow = true) :
    (finite s m e hc).displayRounded p = (Decimal.nearest s
      (Decimal.roundedTo (m * 2 ^ e.toNat) (2 ^ (-e).toNat) (-p.places))).display := by
  simp [displayRounded, hfraction, hlow, hhigh, fixedText?_eq hlow hhigh p.places_le]

end Finite

end Binary64

open Binary64 in
/-- **Numbers rounded to places.**  A number that is not whole, from `1e-6` to below `1e12`, is
shown rounded to the places asked for, twelve at most, a half away from zero.  The decimal that this
takes has few enough digits not to be refused.  The text has no exponent, no more than these places,
none that can be left out and no minus before a zero; it is read as the number nearest to the
rounded value, and writes the rounded value itself if fifteen digits are enough for it.  The
negative of the number has the same text with the other sign, or both are `0`. -/
theorem displayRounded_fixed {v : Binary64} {n : ℤ} (hfraction : v.isIntegral = false)
    (hlow : v.abs.lt fullFrom = false) (hhigh : v.abs.lt roundedBelow = true) :
    ∃ (places : ℕ) (negative : Bool) (ws fs : List Char),
      (places : ℤ) = max 0 (min 12 n) ∧
      v.fixedText? places = some (v.displayRounded (.clamp n)) ∧
      v.displayRounded (.clamp n) = String.ofList (withSign negative (ws ++ fs)) ∧
      IsFixedText places (halfAway (-places) v.toRat) negative ws fs ∧
      (ofRat (halfAway (-places) v.toRat)).IsNearest (halfAway (-places) v.toRat) ∧
      (v.neg.displayRounded (.clamp n) = String.ofList (withSign (!negative) (ws ++ fs)) ∨
        v.displayRounded (.clamp n) = "0" ∧ v.neg.displayRounded (.clamp n) = "0") := by
  obtain _ | _ | ⟨s, m, e, hc⟩ := v
  · cases hhigh
  · cases hhigh
  obtain ⟨hle, hge⟩ := size_bounds hlow hhigh
  have hclamp := Precision.places_clamp n
  have hmost := (Precision.clamp n).places_le
  have htext := displayRounded_of_places (p := .clamp n) hfraction hlow hhigh
  have hopposite : (finite s m e hc).neg.displayRounded (.clamp n) = _ :=
    displayRounded_of_places (s := !s) (p := .clamp n) hfraction hlow hhigh
  generalize (Precision.clamp n).places = places at *
  have hround : halfAway (-places) (finite s m e hc).toRat =
      (if s then -1 else 1) * halfAway (-places) (m * 2 ^ e) :=
    halfAway_signed s (by positivity)
  obtain ⟨hcases, hmax⟩ := halfAway_places_bounds hmost hle hge
  rw [← toRat_roundedTo_finite] at hcases hmax hround
  obtain ⟨negative, ws, fs, hshown, hfixed, hneg⟩ :=
    exists_isFixedText_signed (Decimal.exponent_roundedTo _ _ (-places)) hcases hmax s
  rw [← htext, ← hopposite] at hneg
  rw [← htext] at hshown
  rw [← hround] at hfixed
  refine ⟨places, negative, ws, fs, hclamp, ?_, hshown, hfixed, isNearest_ofRat ?_, hneg⟩
  · rw [fixedText?_eq hlow hhigh hmost, htext]
  · rw [hround, abs_signed s (Decimal.toRat_nonneg _)]
    exact lt_of_le_of_lt hmax ten_pow_twelve_lt_overflowFrom

/-- The last number below `1e12`, of thirteen places. -/
def Binary64.lastFixed : Binary64 :=
  .finite false 8191999999999999 (-13) (by decide)

/-- The last place of this number is a half to be rounded up.  The numbers are further apart here
than the twelfth place, so that the text has four places only. -/
theorem displayRounded_fixed_last :
    Binary64.lastFixed.isIntegral = false ∧ Binary64.lastFixed.abs.lt .fullFrom = false ∧
      Binary64.lastFixed.abs.lt .roundedBelow = true ∧
      Binary64.lastFixed.fixedText? 12 = some "999999999999.9999" ∧
      Binary64.ofScientific? "999999999999.9999".toList =
        some (.ofRat (halfAway (-12) Binary64.lastFixed.toRat)) := by
  have hfraction : Binary64.lastFixed.isIntegral = false := by decide +kernel
  have hlow : Binary64.lastFixed.abs.lt .fullFrom = false := by decide +kernel
  have hhigh : Binary64.lastFixed.abs.lt .roundedBelow = true := by decide +kernel
  have hshown : Binary64.lastFixed.displayRounded (.clamp 12) = "999999999999.9999" := by
    decide +kernel
  obtain ⟨places, negative, ws, fs, hplaces, hfixed, htext, hform, -, -⟩ :=
    displayRounded_fixed (n := 12) hfraction hlow hhigh
  obtain rfl : places = 12 := by omega
  rw [hshown] at hfixed htext
  refine ⟨hfraction, hlow, hhigh, hfixed, ?_⟩
  rw [htext, String.toList_ofList]
  exact hform.read

/-! ### Rounded to digits -/

/-- A text of the rational `x` with an exponent: a digit that is not a zero, so many places and a
power of ten, and it is exact. -/
structure IsExponentText (places : ℕ) (exponent : ℤ) (x : ℚ) (negative : Bool) (c : Char)
    (fs : List Char) (sign : Char) (es : List Char) : Prop where
  digit : Text.isPlainDigit c = true
  leading : c ≠ '0'
  fraction : Decimal.IsFraction fs
  count : fs.tail.length = places
  signed : sign = '-' ∨ sign = '+'
  power : Decimal.IsWhole es
  read : Decimal.signedDigits? (sign :: es) = some exponent
  exact : Decimal.value? (withSign negative (c :: fs ++ 'e' :: sign :: es)) = some x

namespace Binary64

/-- The text of a decimal with an exponent, of either sign. -/
theorem exists_isExponentText {q : Decimal} (h : 0 < q.digits) {count : ℕ}
    (hcount : (Decimal.digitsOf q.digits).length = count + 1) :
    ∃ c fs sign es, q.scientific 1 = c :: fs ++ 'e' :: sign :: es ∧
      ∀ s, IsExponentText count q.leadingExponent ((if s then -1 else 1) * q.toRat) s
        c fs sign es := by
  obtain ⟨c, fs, sign, es, htext, hdigit, hc, hfs, hplaces, -, hsign, hes, hexponent⟩ :=
    Decimal.scientific_form h
  obtain ⟨ws, fs', es', htext', hliteral⟩ := Decimal.exists_isLiteralOf_scientific 1 h
  obtain ⟨d, hread, hvalue⟩ := hliteral.value
  have hunsigned := Decimal.splitSign_of_isWhole hliteral.whole (fs' ++ es')
  rw [← htext', htext] at hread hunsigned
  refine ⟨c, fs, sign, es, htext, fun s => ⟨hdigit, hc, hfs, by omega, hsign, hes, hexponent, ?_⟩⟩
  rw [Decimal.value?_withSign hunsigned hread, hvalue]

end Binary64

open Binary64 in
/-- **Numbers rounded to digits.**  A number that is not whole, below `1e-6` or from `1e12` on, is
shown with an exponent and with as many digits as places are asked for, twelve at most and one at
least.  The text writes the exact value rounded to these digits, a half away from zero; where this
carries into the next power of ten, the exponent is one more.  The negative of the number has the
same text with the other sign. -/
theorem displayRounded_exponent {v : Binary64} {n : ℤ} (hfinite : v.isFinite = true)
    (hfraction : v.isIntegral = false)
    (hsize : v.abs.lt roundedBelow = false ∨ v.abs.lt fullFrom = true) :
    ∃ (places : ℕ) (place : ℤ) (c : Char) (fs : List Char) (sign : Char) (es : List Char),
      (places : ℤ) = max 0 (min 12 n) ∧
      10 ^ place ≤ |v.toRat| ∧ |v.toRat| < 10 ^ (place + 1) ∧
      v.displayRounded (.clamp n) =
        String.ofList (withSign v.isNegative (c :: fs ++ 'e' :: sign :: es)) ∧
      v.neg.displayRounded (.clamp n) =
        String.ofList (withSign (!v.isNegative) (c :: fs ++ 'e' :: sign :: es)) ∧
      IsExponentText (places - 1)
        (place + if |halfAway (place - (places - 1 : ℕ)) v.toRat| = 10 ^ (place + 1) then 1 else 0)
        (halfAway (place - (places - 1 : ℕ)) v.toRat) v.isNegative c fs sign es := by
  obtain _ | _ | ⟨s, m, e, hc⟩ := v
  · cases hfinite
  · cases hfinite
  have hm : 0 < m := by
    rw [Nat.pos_iff_ne_zero]
    intro hzero
    rw [isIntegral_of_isZero (isZero_iff.mpr hzero)] at hfraction
    cases hfraction
  have hclamp := Precision.places_clamp n
  have htext (t : Bool) : (finite t m e hc).displayRounded (.clamp n) =
      String.ofList (withSign t ((Decimal.toDigits (m * 2 ^ e.toNat) (2 ^ (-e).toNat)
        ((Precision.clamp n).places - 1)).scientific 1)) :=
    displayRounded_of_digits hfraction hsize
  generalize (Precision.clamp n).places = places at *
  have hnum : 0 < m * 2 ^ e.toNat := by positivity
  have hden : 0 < 2 ^ (-e).toNat := by positivity
  obtain ⟨hle, hlt⟩ := Decimal.leadingPlace_spec hnum hden
  obtain ⟨hpos, hvalue, hlength, hexponent⟩ := Decimal.toDigits_spec hnum hden (places - 1)
  rw [binary_ratio] at hle hlt hvalue
  generalize Decimal.leadingPlace (m * 2 ^ e.toNat) (2 ^ (-e).toNat) = place at *
  generalize Decimal.toDigits (m * 2 ^ e.toNat) (2 ^ (-e).toNat) (places - 1) = q at *
  obtain ⟨c, fs, sign, es, hform, hexponential⟩ := exists_isExponentText hpos hlength
  have hround : halfAway (place - (places - 1 : ℕ)) (finite s m e hc).toRat =
      (if s then -1 else 1) * q.toRat := by
    rw [hvalue]
    exact halfAway_signed s (by positivity)
  refine ⟨places, place, c, fs, sign, es, hclamp, ?_, ?_, ?_, ?_, ?_⟩
  · rwa [abs_toRat_finite]
  · rwa [abs_toRat_finite]
  · rw [htext, hform]
    rfl
  · exact (htext (!s)).trans (by rw [hform]; rfl)
  · rw [hround, abs_signed s q.toRat_nonneg, ← hexponent]
    exact hexponential s

/-- The number that is written `9.9996e-7`. -/
def Binary64.nearMillionth : Binary64 :=
  .finite false 4722177588210330 (-72) (by decide)

/-- Rounded to four digits this number is a power of ten, which has the four digits too. -/
theorem displayRounded_exponent_carry :
    Binary64.nearMillionth.isFinite = true ∧ Binary64.nearMillionth.isIntegral = false ∧
      (Binary64.nearMillionth.abs.lt .roundedBelow = false ∨
        Binary64.nearMillionth.abs.lt .fullFrom = true) ∧
      Binary64.nearMillionth.displayRounded (.clamp 4) = "1.000e-6" ∧
      ∃ place : ℤ, 10 ^ place ≤ |Binary64.nearMillionth.toRat| ∧
        |Binary64.nearMillionth.toRat| < 10 ^ (place + 1) ∧
        Decimal.value? "1.000e-6".toList =
          some (halfAway (place - 3) Binary64.nearMillionth.toRat) := by
  have hfraction : Binary64.nearMillionth.isIntegral = false := by decide +kernel
  have hsize : Binary64.nearMillionth.abs.lt .fullFrom = true := by decide +kernel
  have hshown : Binary64.nearMillionth.displayRounded (.clamp 4) = "1.000e-6" := by
    decide +kernel
  obtain ⟨places, place, c, fs, sign, es, hplaces, hle, hlt, htext, -, hform⟩ :=
    displayRounded_exponent (v := Binary64.nearMillionth) (n := 4) rfl hfraction (.inr hsize)
  obtain rfl : places = 4 := by omega
  rw [hshown] at htext
  refine ⟨rfl, hfraction, .inr hsize, hshown, place, hle, hlt, ?_⟩
  rw [htext, String.toList_ofList]
  exact hform.exact

end Abacus
