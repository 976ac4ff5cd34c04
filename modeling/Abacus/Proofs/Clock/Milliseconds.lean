import Mathlib.Data.Int.Log
import Mathlib.Data.Rat.Floor
import Abacus.Clock
import Abacus.Proofs.Binary64.Rounding

/-!
# Abacus — Clock — Milliseconds by way of binary64 seconds

An identifier takes the milliseconds of a moment from its seconds: these are rounded to binary64, so
is a thousand times the result, and the fraction is dropped.  A moment can lose the millisecond that
it has just reached, or be given the next one that it is about to reach.  When this happens is told
from the moment alone, by what it is ahead of the nearest binary64 number of seconds and by half the
step that the second rounding goes (`le_millis_iff`).  Before the year 10000 the milliseconds are
never off by more than one (`millis_eq`), and for most moments before 2242 they are exact
(`millis_of_octave`).
-/

namespace Abacus

/-! ### Roundings and products -/

theorem two_zpow_add (i : ℕ) (k : ℤ) : (2 : ℚ) ^ (i + k) = 2 ^ i * 2 ^ k := by
  rw [zpow_add₀ (by norm_num), zpow_natCast]

namespace Binary64

/-- What a fraction between two powers of two rounds to: the whole number of last bits that is
nearest to it. -/
theorem exists_ofRatio {num den : ℕ} {k : ℤ} (hden : 0 < den) (hlow : (2 : ℚ) ^ k ≤ num / den)
    (hhigh : (num : ℚ) / den < 2 ^ (k + 1)) (hk : -1022 ≤ k) (hk' : k < 1023) (negative : Bool) :
    ∃ (r n : ℕ) (f : ℤ) (hc : Canonical n f), NearestEven r (num / den / 2 ^ (k - 52)) ∧
      2 ^ 52 ≤ r ∧ r ≤ 2 ^ 53 ∧ ofRatio negative num den = .finite negative n f hc ∧
      (n * 2 ^ f : ℚ) = r * 2 ^ (k - 52) := by
  have hp : (0 : ℚ) < 2 ^ (k - 52) := by positivity
  have hnum : 0 < num := by
    rw [Nat.pos_iff_ne_zero]
    rintro rfl
    rw [Nat.cast_zero, zero_div] at hlow
    exact absurd hlow (not_le.mpr (by positivity))
  have hlast : lastBit num den = k - 52 := by
    rw [lastBit, leadingBit_eq hnum hden hlow hhigh]
    omega
  obtain ⟨hle, -⟩ := mantissa_bounds hnum hden
  have hrounded := nearestEven_scaled num hden (k - 52)
  rw [ofRatio_eq_ofRounded hnum]
  rw [hlast] at hle ⊢
  generalize divRoundEven (num * 2 ^ (-(k - 52)).toNat) (den * 2 ^ (k - 52).toNat) = r at *
  have hfull : 2 ^ 52 ≤ r := by
    refine hrounded.ge_of_ge ?_
    rw [le_div_iff₀ hp]
    calc ((2 ^ 52 : ℕ) : ℚ) * 2 ^ (k - 52) = 2 ^ ((52 : ℕ) + (k - 52)) := by
          rw [two_zpow_add]
          norm_num
      _ = 2 ^ k := by
          congr 1
          push_cast
          ring
      _ ≤ num / den := hlow
  rcases eq_or_lt_of_le hle with rfl | hlt
  · have hc : Canonical (2 ^ 52) (k - 51) := ⟨by norm_num, by omega, by omega, .inl le_rfl⟩
    refine ⟨2 ^ 53, 2 ^ 52, k - 51, hc, hrounded, hfull, hle, ?_, ?_⟩
    · rw [← ofRounded_of_carry hc]
      congr 1
      ring
    · rw [show k - 51 = k - 52 + 1 by ring, zpow_add_one₀ (by norm_num)]
      push_cast
      ring
  · have hc : Canonical r (k - 52) := ⟨hlt, by omega, by omega, .inl hfull⟩
    exact ⟨r, r, k - 52, hc, hrounded, hfull, hle, ofRounded_of_canonical hc _, rfl⟩

section Finite
variable {m n : ℕ} {e f : ℤ}

/-- A product is the exact product rounded. -/
theorem exists_mul (hm : Canonical m e) (hn : Canonical n f) : ∃ num den : ℕ, 0 < den ∧
    (num : ℚ) / den = m * 2 ^ e * (n * 2 ^ f) ∧
    (finite false m e hm).mul (finite false n f hn) = ofRatio false num den := by
  refine ⟨m * n * 2 ^ (e + f).toNat, 2 ^ (-(e + f)).toNat, by positivity, ?_, rfl⟩
  rw [binary_ratio, zpow_add₀ (by norm_num)]
  push_cast
  ring

/-- A number that is not negative is cut to the whole number below it. -/
theorem truncate?_finite (hm : Canonical m e) :
    (finite false m e hm).truncate? = some ⌊(m * 2 ^ e : ℚ)⌋ := by
  rw [← binary_ratio, Rat.floor_natCast_div_natCast]
  rfl

theorem ofInt_thousand :
    ofInt 1000 = .finite false (1000 * 2 ^ 43) (-43) (by decide) := by decide +kernel

/-- A thousand lies between the ninth power of two and the tenth, so that many last bits go when a
number is multiplied by it. -/
theorem exists_mul_thousand {q : ℕ} {k : ℤ} (hc : Canonical n f)
    (hvalue : (n * 2 ^ f : ℚ) = q * 2 ^ k) (hlow : 2 ^ 52 ≤ q) (hhigh : q ≤ 2 ^ 53)
    (hk : -1074 ≤ k) (hk' : k < 961) :
    ∃ (r t m : ℕ) (e : ℤ) (hm : Canonical m e),
      (t = 9 ∧ 1000 * q < 2 ^ 62 ∨ t = 10 ∧ 2 ^ 62 ≤ 1000 * q) ∧
      NearestEven r (1000 * q / 2 ^ t) ∧
      (finite false n f hc).mul (ofInt 1000) = .finite false m e hm ∧
      (m * 2 ^ e : ℚ) = r * (2 ^ t * 2 ^ k) := by
  have hp : (0 : ℚ) < 2 ^ k := by positivity
  have hthousand : Canonical (1000 * 2 ^ 43) (-43) := by decide
  obtain ⟨num, den, hden, hratio, hmul⟩ := exists_mul hc hthousand
  have hproduct : (num : ℚ) / den = (1000 * q : ℕ) * 2 ^ k := by
    rw [hratio, hvalue]
    norm_num
    ring
  obtain ⟨t, ht, htlow, hthigh⟩ : ∃ t : ℕ,
      (t = 9 ∧ 1000 * q < 2 ^ 62 ∨ t = 10 ∧ 2 ^ 62 ≤ 1000 * q) ∧
        2 ^ (t + 52) ≤ 1000 * q ∧ 1000 * q < 2 ^ (t + 53) := by
    rcases lt_or_ge (1000 * q) (2 ^ 62) with h | h
    · exact ⟨9, .inl ⟨rfl, h⟩, by omega, by omega⟩
    · exact ⟨10, .inr ⟨rfl, h⟩, by omega, by omega⟩
  have hbelow : (2 : ℚ) ^ ((t + 52 : ℕ) + k) ≤ num / den := by
    rw [hproduct, two_zpow_add]
    gcongr
    exact_mod_cast htlow
  have habove : (num : ℚ) / den < 2 ^ ((t + 52 : ℕ) + k + 1) := by
    rw [hproduct, show ((t + 52 : ℕ) + k + 1 : ℤ) = (t + 53 : ℕ) + k by push_cast; ring,
      two_zpow_add]
    gcongr
    exact_mod_cast hthigh
  obtain ⟨r, m, e, hm, hr, -, -, hrounded, hvalue'⟩ :=
    exists_ofRatio hden hbelow habove (by omega) (by omega) false
  have hstep : (2 : ℚ) ^ ((t + 52 : ℕ) + k - 52) = 2 ^ t * 2 ^ k := by
    rw [show ((t + 52 : ℕ) + k - 52 : ℤ) = t + k by push_cast; ring, two_zpow_add]
  rw [hstep] at hr hvalue'
  rw [hproduct, mul_div_mul_right _ _ hp.ne'] at hr
  refine ⟨r, t, m, e, hm, ht, ?_, ?_, hvalue'⟩
  · exact_mod_cast hr
  · rw [ofInt_thousand, hmul, hrounded]

end Finite

end Binary64

/-- The first moment whose year has more than four digits. -/
def Calendar.horizon : ℕ := 253402300800000000

example : Calendar.timestamp (Calendar.horizon - 1) = "9999-12-31T23:59:59.999Z" := by
  decide +kernel

namespace Identifier

/-! ### Where the roundings lead -/

/-- How many binary64 numbers there are to a second about the seconds of a moment. -/
def perSecond (us : ℕ) : ℕ :=
  2 ^ (52 - Int.log 2 (us / 1000000 : ℚ)).toNat

/-- How far the seconds of a moment are ahead of the binary64 number nearest to them, in millionths
of the step from one of these numbers to the next. -/
def ahead (us : ℕ) : ℤ :=
  Int.bmod (us * perSecond us) 1000000

/-- Half the step between the binary64 numbers where a thousand times the seconds lie, in the same
unit.  A thousand lies between the ninth power of two and the tenth, so the step there is that of
the seconds doubled nine times or ten. -/
def margin (us : ℕ) : ℤ :=
  if us * perSecond us - ahead us < 1000 * 2 ^ 62 then 256000 else 512000

section Roundings
variable {us : ℕ}

/-- The powers of two between which the seconds of a moment lie. -/
theorem log_bounds (hpos : 0 < us) (hrange : us < Calendar.horizon) :
    -20 ≤ Int.log 2 (us / 1000000 : ℚ) ∧ Int.log 2 (us / 1000000 : ℚ) < 38 := by
  have hseconds : (0 : ℚ) < us / 1000000 := by positivity
  have hone : (1 : ℚ) ≤ us := by exact_mod_cast hpos
  have hend : (us : ℚ) < 253402300800000000 := by exact_mod_cast hrange
  constructor
  · rw [← Int.zpow_le_iff_le_log (by decide) hseconds, le_div_iff₀ (by norm_num)]
    exact le_trans (by norm_num) hone
  · rw [← Int.lt_zpow_iff_log_lt (by decide) hseconds, div_lt_iff₀ (by norm_num)]
    exact hend.trans (by norm_num)

/-- The step between the numbers about the seconds. -/
theorem zpow_log_sub (hpos : 0 < us) (hrange : us < Calendar.horizon) :
    (2 : ℚ) ^ (Int.log 2 (us / 1000000 : ℚ) - 52) = (perSecond us : ℚ)⁻¹ := by
  obtain ⟨-, hlog⟩ := log_bounds hpos hrange
  have hexponent : Int.log 2 (us / 1000000 : ℚ) - 52 =
      -((52 - Int.log 2 (us / 1000000 : ℚ)).toNat : ℤ) := by omega
  rw [hexponent, zpow_neg, zpow_natCast, perSecond]
  push_cast
  rfl

/-- The seconds are rounded to `q` steps, and a thousand times as many to `r` steps of `2 ^ 9` or
`2 ^ 10` each. -/
theorem exists_roundings (hpos : 0 < us) (hrange : us < Calendar.horizon) :
    ∃ q r t : ℕ, (t = 9 ∧ 1000 * q < 2 ^ 62 ∨ t = 10 ∧ 2 ^ 62 ≤ 1000 * q) ∧
      NearestEven q (us * perSecond us / 1000000) ∧ NearestEven r (1000 * q / 2 ^ t) ∧
      millis us = ⌊(r * 2 ^ t / perSecond us : ℚ)⌋ := by
  obtain ⟨hlow, hhigh⟩ := log_bounds hpos hrange
  have hstep := zpow_log_sub hpos hrange
  have hseconds : (0 : ℚ) < us / 1000000 := by positivity
  have hle : (2 : ℚ) ^ Int.log 2 (us / 1000000 : ℚ) ≤ (us : ℚ) / (1000000 : ℕ) := by
    exact_mod_cast Int.zpow_log_le_self (by decide : 1 < 2) hseconds
  have hlt : (us : ℚ) / (1000000 : ℕ) < 2 ^ (Int.log 2 (us / 1000000 : ℚ) + 1) := by
    exact_mod_cast Int.lt_zpow_succ_log_self (by decide : 1 < 2) (us / 1000000 : ℚ)
  generalize Int.log 2 (us / 1000000 : ℚ) = k at *
  obtain ⟨q, n, f, hc, hq, hqlow, hqhigh, hrounded, hvalue⟩ :=
    Binary64.exists_ofRatio (by decide) hle hlt (by omega) (by omega) false
  obtain ⟨r, t, m, e, hm, ht, hr, hmul, hvalue'⟩ :=
    Binary64.exists_mul_thousand hc hvalue hqlow hqhigh (by omega) (by omega)
  refine ⟨q, r, t, ht, ?_, hr, ?_⟩
  · rw [hstep, div_inv_eq_mul] at hq
    convert hq using 1
    push_cast
    ring
  · have hnegative : decide ((us : ℤ) < 0) = false := decide_eq_false (by omega)
    rw [millis, hnegative, Int.natAbs_natCast, hrounded, hmul, Binary64.truncate?_finite, hvalue',
      hstep, ← mul_assoc, ← div_eq_mul_inv]
    rfl

/-- Up to the horizon there are thirty-two to a millisecond at least, and a power of two to a
second. -/
theorem dvd_perSecond (hpos : 0 < us) (hrange : us < Calendar.horizon) :
    2 ^ 15 ∣ perSecond us := by
  obtain ⟨-, hlog⟩ := log_bounds hpos hrange
  exact Nat.pow_dvd_pow 2 (by omega)

/-- A moment less what it is ahead is the nearest number of seconds. -/
theorem mul_perSecond_sub_ahead (hpos : 0 < us) (hrange : us < Calendar.horizon) {q : ℕ}
    (hq : NearestEven q (us * perSecond us / 1000000)) :
    us * perSecond us - ahead us = 1000000 * q := by
  obtain ⟨z, hz⟩ := dvd_perSecond hpos hrange
  obtain ⟨hlow, hhigh⟩ := hq.bounds
  rw [le_div_iff₀ (by norm_num)] at hlow
  rw [div_le_iff₀ (by norm_num)] at hhigh
  have hlow : 2 * 1000000 * q - 1000000 ≤ 2 * (us * perSecond us : ℤ) := by
    have : (2 * 1000000 * q - 1000000 : ℚ) ≤ 2 * (us * perSecond us) := by linarith
    exact_mod_cast this
  have hhigh : 2 * (us * perSecond us : ℤ) ≤ 2 * 1000000 * q + 1000000 := by
    have : (2 * (us * perSecond us) : ℚ) ≤ 2 * 1000000 * q + 1000000 := by linarith
    exact_mod_cast this
  -- no moment lies half way between two numbers, since a million has not so many factors of two
  have hhalf : 2 * (us * perSecond us : ℤ) ≠ 2 * 1000000 * q + 1000000 := by
    rw [hz]
    push_cast
    rw [mul_left_comm (us : ℤ)]
    omega
  have hahead : ahead us = us * perSecond us - 1000000 * q := by
    have hmod : (us * perSecond us - 1000000 * q : ℤ) - us * perSecond us =
        (1000000 : ℕ) * -q := by
      push_cast
      ring
    refine (Int.bmod_eq_iff (by norm_num)).mpr ⟨?_, ?_, ?_⟩
    · norm_num
      omega
    · norm_num
      omega
    · exact Dvd.intro _ hmod.symm
  rw [hahead]
  ring

/-- The margin is half of what the second rounding goes by. -/
theorem margin_eq {q t : ℕ} (hnearest : us * perSecond us - ahead us = 1000000 * q)
    (ht : t = 9 ∧ 1000 * q < 2 ^ 62 ∨ t = 10 ∧ 2 ^ 62 ≤ 1000 * q) :
    margin us = 500 * 2 ^ t := by
  rw [margin, hnearest]
  rcases ht with ⟨rfl, h⟩ | ⟨rfl, h⟩
  · exact if_pos (by omega)
  · exact if_neg (by omega)

/-- **When the milliseconds reach a number.**  They are `n` at least when the moment is so far past
`n` milliseconds that this and the margin make up for what its seconds are ahead. -/
theorem le_millis_iff (hpos : 0 < us) (hrange : us < Calendar.horizon) (n : ℕ) :
    n ≤ millis us ↔ ahead us ≤ (us - 1000 * n) * perSecond us + margin us := by
  obtain ⟨q, r, t, ht, hq, hr, hmillis⟩ := exists_roundings hpos hrange
  have hnearest := mul_perSecond_sub_ahead hpos hrange hq
  obtain ⟨z, hz⟩ : 2 * 2 ^ t ∣ perSecond us := by
    refine dvd_trans ?_ (dvd_perSecond hpos hrange)
    rcases ht with ⟨rfl, -⟩ | ⟨rfl, -⟩ <;> norm_num
  have hU : (0 : ℚ) < perSecond us := by
    rw [perSecond]
    positivity
  have hp : (0 : ℚ) < 2 ^ t := by positivity
  have hsplit : (n * perSecond us : ℚ) = (n * (2 * z) : ℕ) * 2 ^ t := by
    rw [hz]
    push_cast
    ring
  have hcount : (n : ℚ) ≤ r * 2 ^ t / perSecond us ↔ n * (2 * z) ≤ r := by
    rw [le_div_iff₀ hU, hsplit, mul_le_mul_iff_left₀ hp, Nat.cast_le]
  have heven : n * (2 * z) % 2 = 0 := by
    rw [Nat.mul_left_comm]
    exact Nat.mul_mod_right ..
  have hreach : ((n * (2 * z) : ℕ) - 1 / 2 : ℚ) ≤ 1000 * q / 2 ^ t ↔
      2 * (n * perSecond us) - 2 ^ t ≤ (2000 * q : ℤ) := by
    rw [le_div_iff₀ hp, sub_mul, ← hsplit, ← Int.cast_le (R := ℚ)]
    push_cast
    constructor <;> intro h <;> linarith
  rw [hmillis, Int.le_floor, Int.cast_natCast, hcount, hr.le_iff_of_even heven,
    margin_eq hnearest ht, hreach]
  constructor <;> intro h <;> linarith

end Roundings

/-! ### The milliseconds of a moment -/

/-- The milliseconds come out too low: the seconds are rounded down by more than the moment is past
the last whole millisecond and the second rounding makes good. -/
def FallsShort (us : ℕ) : Prop :=
  us % 1000 * perSecond us + margin us < ahead us

/-- The milliseconds come out too high: the two roundings go up by as much as the moment is before
the next whole millisecond. -/
def Overshoots (us : ℕ) : Prop :=
  (1000 - us % 1000) * perSecond us ≤ margin us - ahead us

instance (us : ℕ) : Decidable (FallsShort us) :=
  inferInstanceAs (Decidable (_ < _))

instance (us : ℕ) : Decidable (Overshoots us) :=
  inferInstanceAs (Decidable (_ ≤ _))

section Milliseconds
variable {us : ℕ}

theorem rest_nonneg (us : ℕ) : 0 ≤ (us : ℤ) % 1000 * perSecond us :=
  mul_nonneg (Int.emod_nonneg _ (by norm_num)) (Int.natCast_nonneg _)

/-- Rounded to the nearest, the seconds are at most half a step off. -/
theorem ahead_bounds (us : ℕ) : -500000 ≤ ahead us ∧ ahead us < 500000 :=
  ⟨Int.le_bmod (by decide), Int.bmod_lt (by decide)⟩

/-- The step of the product is that of the seconds, doubled nine times or ten. -/
theorem margin_cases (us : ℕ) : margin us = 256000 ∨ margin us = 512000 := by
  unfold margin
  split_ifs <;> simp

/-- When the milliseconds reach what is `i` away from the moment's own. -/
theorem le_millis_away_iff (hlow : 1000 ≤ us) (hrange : us < Calendar.horizon) {i : ℤ}
    (hi : -1 ≤ i) : us / 1000 + i ≤ millis us ↔
      ahead us + i * (1000 * perSecond us) ≤ us % 1000 * perSecond us + margin us := by
  obtain ⟨n, hn⟩ := Int.eq_ofNat_of_zero_le (by omega : 0 ≤ (us : ℤ) / 1000 + i)
  have hbehind : (us : ℤ) - 1000 * n = us % 1000 - i * 1000 := by omega
  rw [hn, le_millis_iff (by omega) hrange, hbehind]
  constructor <;> intro h <;> linarith

/-- Rounding twice is off by one millisecond at most. -/
theorem millis_eq (hlow : 1000 ≤ us) (hrange : us < Calendar.horizon) :
    millis us = if Overshoots us then (us / 1000 + 1 : ℤ)
      else if FallsShort us then (us / 1000 - 1 : ℤ) else (us / 1000 : ℤ) := by
  obtain ⟨hahead, hahead'⟩ := ahead_bounds us
  have hmargin := margin_cases us
  have hsteps : 2 ^ 15 ≤ perSecond us :=
    Nat.le_of_dvd (Nat.two_pow_pos _) (dvd_perSecond (by omega) hrange)
  have hrest := rest_nonneg us
  have hrest' : (us : ℤ) % 1000 * perSecond us ≤ 999 * perSecond us := by
    gcongr
    omega
  have hbefore := le_millis_away_iff hlow hrange (i := -1) (by decide)
  have hown := le_millis_away_iff hlow hrange (i := 0) (by decide)
  have hnext := le_millis_away_iff hlow hrange (i := 1) (by decide)
  have hbeyond := le_millis_away_iff hlow hrange (i := 2) (by decide)
  have hover : Overshoots us ↔ ahead us + 1 * (1000 * perSecond us) ≤
      us % 1000 * perSecond us + margin us := by
    rw [Overshoots, sub_mul]
    constructor <;> intro h <;> linarith
  have hshort : FallsShort us ↔ us % 1000 * perSecond us + margin us < ahead us := Iff.rfl
  simp only [hover, hshort]
  generalize (us : ℤ) % 1000 * perSecond us = rest at *
  split_ifs <;> omega

example : FallsShort 1001000 ∧ Overshoots 8589934592003999 := by decide +kernel

/-- The greater margin is more than what a moment can be ahead. -/
theorem not_fallsShort_of_margin (h : margin us = 512000) : ¬ FallsShort us := by
  have := rest_nonneg us
  have := ahead_bounds us
  rw [FallsShort, h]
  omega

/-- As long as no step is longer than a microsecond, a moment before a whole millisecond is not
rounded up to it. -/
theorem not_overshoots_of_le (h : 2 ^ 20 ≤ perSecond us) : ¬ Overshoots us := by
  have hstep : (perSecond us : ℤ) ≤ (1000 - us % 1000) * perSecond us := by
    refine le_mul_of_one_le_left (Int.natCast_nonneg _) ?_
    omega
  have := ahead_bounds us
  have := margin_cases us
  rw [Overshoots]
  omega

/-- Between two powers of two the steps to a second stay the same. -/
theorem perSecond_eq {k : ℕ} (hlow : 1000000 * 2 ^ k ≤ us) (hhigh : us < 1000000 * 2 ^ (k + 1)) :
    perSecond us = 2 ^ (52 - k) := by
  have hlow : (2 : ℚ) ^ (k : ℤ) ≤ us / 1000000 := by
    rw [le_div_iff₀ (by norm_num), mul_comm, zpow_natCast]
    exact_mod_cast hlow
  have hhigh : (us / 1000000 : ℚ) < 2 ^ (k + 1 : ℤ) := by
    rw [div_lt_iff₀ (by norm_num), mul_comm]
    exact_mod_cast hhigh
  have hpos : (0 : ℚ) < us / 1000000 := lt_of_lt_of_le (by positivity) hlow
  have hlog : Int.log 2 (us / 1000000 : ℚ) = k :=
    le_antisymm (Int.lt_add_one_iff.mp ((Int.lt_zpow_iff_log_lt (by decide) hpos).mp hhigh))
      ((Int.zpow_le_iff_le_log (by decide) hpos).mp hlow)
  rw [perSecond, hlog]
  congr 1
  omega

/-- **Most moments have their own milliseconds.**  When the seconds lie from `1.024 · 2 ^ k` to
`2 ^ (k + 1)`, the second rounding makes good what the first one has done, as long as no step
between the numbers is longer than a microsecond. -/
theorem millis_of_octave {k : ℕ} (hk : k < 33) (hlow : 1024000 * 2 ^ k ≤ us)
    (hhigh : us < 1000000 * 2 ^ (k + 1)) : millis us = us / 1000 := by
  have hsteps : perSecond us = 2 ^ (52 - k) := perSecond_eq (by omega) hhigh
  have hpower : 2 ^ k * perSecond us = 2 ^ 52 := by
    rw [hsteps, ← pow_add]
    congr 1
    omega
  have hmargin : margin us = 512000 := by
    have hwhole : (1000000 : ℤ) ∣ us * perSecond us - ahead us := Int.dvd_self_sub_bmod
    have hproduct : 1000 * 2 ^ 62 ≤ (us * perSecond us : ℤ) := by
      have := Nat.mul_le_mul_right (perSecond us) hlow
      rw [mul_assoc, hpower] at this
      exact_mod_cast this
    have := ahead_bounds us
    exact if_neg (by omega)
  have hrange : us < Calendar.horizon := by
    have : 2 ^ (k + 1) ≤ 2 ^ 33 := Nat.pow_le_pow_right (by decide) (by omega)
    rw [Calendar.horizon]
    omega
  have hmany : 2 ^ 20 ≤ perSecond us := hsteps ▸ Nat.pow_le_pow_right (by decide) (by omega)
  have : 2 ^ 0 ≤ 2 ^ k := Nat.pow_le_pow_right (by decide) k.zero_le
  rw [millis_eq (by omega) hrange, if_neg (not_overshoots_of_le hmany),
    if_neg (not_fallsShort_of_margin hmargin)]

end Milliseconds

end Identifier

end Abacus
