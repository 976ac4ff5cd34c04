import Mathlib.Algebra.Order.Field.Power
import Mathlib.Data.Rat.Cast.Order
import Mathlib.Tactic.FieldSimp
import Mathlib.Tactic.Linarith
import Mathlib.Tactic.NormNum
import Mathlib.Tactic.Positivity
import Mathlib.Tactic.Ring
import Abacus.Binary64.Rounding

/-!
# Abacus — Binary64 — What rounding gives

The number that a fraction rounds to, told from the fraction's value alone.  The mantissa is the
whole number nearest to the fraction counted in last bits (`nearestEven_scaled`).  `InReach m e x`
says that `x` lies no further from `m · 2 ^ e` than half way to the next binary64 number, the half
way itself counting for an even mantissa.  Such a fraction rounds to `m · 2 ^ e`, given as a
quotient (`ofRatio_of_inReach`) or in decimals (`ofDecimal_of_inReach`).  A number is finite exactly
when it lies less than half a last bit above the greatest one (`isFinite_ofRatio_iff`,
`isFinite_ofDecimal_iff`).
-/

namespace Abacus

/-! ### Powers with whole exponents -/

/-- A power with a whole exponent is a quotient of powers with natural ones. -/
theorem zpow_toNat (b : ℕ) (hb : 0 < b) (e : ℤ) :
    (b : ℚ) ^ e.toNat = (b : ℚ) ^ e * (b : ℚ) ^ (-e).toNat := by
  have : (b : ℚ) ≠ 0 := by positivity
  rcases Int.eq_nat_or_neg e with ⟨n, rfl | rfl⟩ <;> simp [this]

/-- A whole number of powers is a whole number of lesser powers. -/
theorem exists_units {b : ℕ} (hb : 0 < b) (n : ℕ) {e f : ℤ} (h : e ≤ f) :
    ∃ k : ℕ, n * (b : ℚ) ^ f = k * (b : ℚ) ^ e := by
  have : (b : ℚ) ≠ 0 := by positivity
  obtain ⟨j, rfl⟩ := Int.le.dest h
  refine ⟨n * b ^ j, ?_⟩
  rw [zpow_add₀ this, zpow_natCast]
  push_cast
  ring

/-- A whole number of powers, as a quotient of whole numbers. -/
theorem units_ratio {b : ℕ} (hb : 0 < b) (n : ℕ) (e : ℤ) :
    ((n * b ^ e.toNat : ℕ) : ℚ) / (b ^ (-e).toNat : ℕ) = n * (b : ℚ) ^ e := by
  have h := zpow_toNat b hb e
  have hp : (0 : ℚ) < (b : ℚ) ^ (-e).toNat := by positivity
  push_cast
  rw [h]
  field_simp

/-- The quotient that stands for `m · 2 ^ e`. -/
theorem binary_ratio (m : ℕ) (e : ℤ) :
    ((m * 2 ^ e.toNat : ℕ) : ℚ) / (2 ^ (-e).toNat : ℕ) = m * 2 ^ e :=
  units_ratio (by decide) m e

/-- The quotient that stands for a decimal. -/
theorem decimal_ratio (digits : ℕ) (exponent : ℤ) :
    ((digits * 10 ^ exponent.toNat : ℕ) : ℚ) / (10 ^ (-exponent).toNat : ℕ) =
      digits * 10 ^ exponent :=
  units_ratio (by decide) digits exponent

/-- A fraction scaled by a power, as the rounding scales it. -/
theorem scaled_ratio {b : ℕ} (hb : 0 < b) (num den : ℕ) (e : ℤ) :
    ((num * b ^ (-e).toNat : ℕ) : ℚ) / (den * b ^ e.toNat : ℕ) = num / den / (b : ℚ) ^ e := by
  have h := zpow_toNat b hb e
  have hp : (0 : ℚ) < (b : ℚ) ^ (-e).toNat := by positivity
  push_cast
  rw [h]
  rcases eq_or_ne (den : ℚ) 0 with hd | hd
  · simp [hd]
  · field_simp

/-- Scaling a quotient by a power of two, in whole numbers. -/
theorem scaled_eq (num den : ℕ) (e : ℤ) :
    ((num * 2 ^ (-e).toNat : ℕ) : ℚ) / (den * 2 ^ e.toNat : ℕ) = num / den / 2 ^ e :=
  scaled_ratio (by decide) num den e

/-! ### The nearest whole number -/

/-- No whole number is nearer to `x` than `n`, and no other as near unless `n` is even. -/
def NearestEven (n : ℕ) (x : ℚ) : Prop :=
  (n - 1 / 2 < x ∧ x < n + 1 / 2) ∨ n % 2 = 0 ∧ n - 1 / 2 ≤ x ∧ x ≤ n + 1 / 2

namespace NearestEven
variable {m n : ℕ} {x : ℚ}

/-- The nearest whole number is at most one half away. -/
theorem bounds (h : NearestEven n x) : (n - 1 / 2 : ℚ) ≤ x ∧ x ≤ n + 1 / 2 :=
  h.elim (fun h => ⟨h.1.le, h.2.le⟩) And.right

/-- Half way from a number to the next one both of them have to be even, which they are not. -/
theorem le_of_nearestEven (hm : NearestEven m x) (hn : NearestEven n x) : m ≤ n := by
  by_contra hlt
  have hnext : (n + 1 : ℚ) ≤ m := by exact_mod_cast not_le.mp hlt
  rcases hn with ⟨-, hx⟩ | ⟨hn, -, hx⟩
  · linarith [hm.bounds.1]
  · rcases hm with ⟨hx', -⟩ | ⟨hm, hx', -⟩
    · linarith
    · have hone : (m : ℚ) = (n + 1 : ℕ) := by
        push_cast
        linarith
      have : m = n + 1 := by exact_mod_cast hone
      omega

/-- There is one nearest whole number, the even one half way between two. -/
theorem unique (hm : NearestEven m x) (hn : NearestEven n x) : m = n :=
  le_antisymm (hm.le_of_nearestEven hn) (hn.le_of_nearestEven hm)

theorem le_of_le (h : NearestEven m x) (hx : x ≤ n) : m ≤ n := by
  by_contra hlt
  have hnext : (n + 1 : ℚ) ≤ m := by exact_mod_cast not_le.mp hlt
  linarith [h.bounds.1]

theorem ge_of_ge (h : NearestEven m x) (hx : n ≤ x) : n ≤ m := by
  by_contra hlt
  have hnext : (m + 1 : ℚ) ≤ n := by exact_mod_cast not_le.mp hlt
  linarith [h.bounds.2]

/-- An even number is reached from half a unit below it on. -/
theorem le_iff_of_even (h : NearestEven m x) (heven : n % 2 = 0) : n ≤ m ↔ (n - 1 / 2 : ℚ) ≤ x := by
  constructor
  · intro hle
    have : (n : ℚ) ≤ m := by exact_mod_cast hle
    linarith [h.bounds.1]
  · intro hx
    by_contra hlt
    have hnext : (m + 1 : ℚ) ≤ n := by exact_mod_cast not_le.mp hlt
    have : NearestEven n x := .inr ⟨heven, hx, by linarith [h.bounds.2]⟩
    exact hlt (this.le_of_nearestEven h)

end NearestEven

/-- The division rounds to the nearest whole number. -/
theorem nearestEven_divRoundEven (num : ℕ) {den : ℕ} (hden : 0 < den) :
    NearestEven (divRoundEven num den) (num / den) := by
  have hd : (0 : ℚ) < den := by exact_mod_cast hden
  have hratio : (num : ℚ) / den = (num / den : ℕ) + (num % den : ℕ) / den := by
    have hsplit : ((den * (num / den) + num % den : ℕ) : ℚ) = num := by rw [Nat.div_add_mod]
    rw [← hsplit]
    push_cast
    field_simp
  have hmod : (0 : ℚ) ≤ (num % den : ℕ) / den ∧ ((num % den : ℕ) : ℚ) / den < 1 := by
    refine ⟨by positivity, (div_lt_one hd).mpr ?_⟩
    exact_mod_cast Nat.mod_lt num hden
  rw [hratio]
  unfold divRoundEven NearestEven
  generalize num / den = q at hmod ⊢
  generalize num % den = r at hmod ⊢
  split_ifs with hdown hup
  · have : (r : ℚ) / den < 1 / 2 := by
      rw [div_lt_iff₀ hd]
      have : (2 * r : ℚ) < den := by exact_mod_cast hdown
      linarith
    exact .inl ⟨by linarith, by linarith⟩
  · have : 1 / 2 < (r : ℚ) / den := by
      rw [lt_div_iff₀ hd]
      have : (den : ℚ) < 2 * r := by exact_mod_cast hup
      linarith
    push_cast
    exact .inl ⟨by linarith, by linarith⟩
  · -- half way, the odd one of the two numbers goes up to the even one
    have : (r : ℚ) / den = 1 / 2 := by
      rw [div_eq_iff hd.ne']
      have : (2 * r : ℚ) = den := by exact_mod_cast (by omega : 2 * r = den)
      linarith
    have hbit : ((q % 2 : ℕ) : ℚ) ≤ 1 := by exact_mod_cast (by omega : q % 2 ≤ 1)
    have hnat : (0 : ℚ) ≤ (q % 2 : ℕ) := by positivity
    push_cast
    exact .inr ⟨by omega, by linarith, by linarith⟩

/-- The same, for a fraction that is counted in last bits. -/
theorem nearestEven_scaled (num : ℕ) {den : ℕ} (hden : 0 < den) (e : ℤ) :
    NearestEven (divRoundEven (num * 2 ^ (-e).toNat) (den * 2 ^ e.toNat)) (num / den / 2 ^ e) := by
  rw [← scaled_eq]
  exact nearestEven_divRoundEven _ (by positivity)

/-! ### The leading bit -/

/-- Comparing a quotient with a power of two, in whole numbers. -/
theorem zpow_le_ratio_iff {num den : ℕ} (hden : 0 < den) (k : ℤ) :
    (2 : ℚ) ^ k ≤ num / den ↔ den * 2 ^ k.toNat ≤ num * 2 ^ (-k).toNat := by
  have hd : (0 : ℚ) < den := by exact_mod_cast hden
  have hp : (0 : ℚ) < (2 : ℚ) ^ (-k).toNat := by positivity
  have h := zpow_toNat 2 (by decide) k
  push_cast at h
  rw [le_div_iff₀ hd, ← mul_le_mul_iff_left₀ hp, ← Nat.cast_le (α := ℚ)]
  push_cast
  rw [h]
  exact iff_of_eq (by congr 1; ring)

/-- Between the powers of two of the leading bit and the next one. -/
theorem leadingBit_spec {num den : ℕ} (hnum : 0 < num) (hden : 0 < den) :
    (2 : ℚ) ^ leadingBit num den ≤ num / den ∧ (num : ℚ) / den < 2 ^ (leadingBit num den + 1) := by
  have hd : (0 : ℚ) < den := by exact_mod_cast hden
  have hlow {n : ℕ} (hn : 0 < n) : (2 : ℚ) ^ (n.log2 : ℤ) ≤ n := by
    exact_mod_cast Nat.log2_self_le (by omega)
  have hhigh (n : ℕ) : (n : ℚ) < 2 ^ ((n.log2 : ℤ) + 1) := by
    exact_mod_cast Nat.lt_log2_self (n := n)
  have hbelow : (num : ℚ) / den < 2 ^ ((num.log2 : ℤ) - den.log2 + 1) := by
    rw [div_lt_iff₀ hd]
    calc (num : ℚ) < 2 ^ ((num.log2 : ℤ) + 1) := hhigh num
      _ = 2 ^ ((num.log2 : ℤ) - den.log2 + 1) * 2 ^ (den.log2 : ℤ) := by
          rw [← zpow_add₀ (by norm_num)]; congr 1; ring
      _ ≤ _ := by gcongr; exact hlow hden
  have habove : (2 : ℚ) ^ ((num.log2 : ℤ) - den.log2 - 1) ≤ num / den := by
    rw [le_div_iff₀ hd]
    calc (2 : ℚ) ^ ((num.log2 : ℤ) - den.log2 - 1) * den
        ≤ 2 ^ ((num.log2 : ℤ) - den.log2 - 1) * 2 ^ ((den.log2 : ℤ) + 1) := by
          gcongr; exact (hhigh den).le
      _ = 2 ^ (num.log2 : ℤ) := by rw [← zpow_add₀ (by norm_num)]; congr 1; ring
      _ ≤ num := hlow hnum
  simp only [leadingBit]
  split_ifs with h
  · exact ⟨(zpow_le_ratio_iff hden _).mpr h, hbelow⟩
  · rw [← zpow_le_ratio_iff hden, not_le] at h
    exact ⟨habove, by simpa using h⟩

/-- The leading bit is the one whose power the quotient reaches without doubling it. -/
theorem leadingBit_eq {num den : ℕ} {k : ℤ} (hnum : 0 < num) (hden : 0 < den)
    (hlow : (2 : ℚ) ^ k ≤ num / den) (hhigh : (num : ℚ) / den < 2 ^ (k + 1)) :
    leadingBit num den = k := by
  obtain ⟨hle, hlt⟩ := leadingBit_spec hnum hden
  have h₁ := (zpow_lt_zpow_iff_right₀ (by norm_num : (1 : ℚ) < 2)).mp (hlow.trans_lt hlt)
  have h₂ := (zpow_lt_zpow_iff_right₀ (by norm_num : (1 : ℚ) < 2)).mp (hle.trans_lt hhigh)
  omega

/-! ### The numbers that round to a given one -/

/-- Half way to the next number at most, on either side of `m · 2 ^ e`; below a power of two the
next number is twice as near, unless it is as small as can be.  Half way itself counts for an even
mantissa. -/
def InReach (m : ℕ) (e : ℤ) (x : ℚ) : Prop :=
  let low := (m - if m = 2 ^ 52 ∧ -1074 < e then 1 / 4 else 1 / 2) * (2 : ℚ) ^ e
  let high := (m + 1 / 2) * (2 : ℚ) ^ e
  low < x ∧ x < high ∨ m % 2 = 0 ∧ low ≤ x ∧ x ≤ high

namespace InReach
variable {m : ℕ} {e : ℤ} {x : ℚ}

/-- A number is in its own reach. -/
theorem self (m : ℕ) (e : ℤ) : InReach m e (m * 2 ^ e) := by
  have h : (0 : ℚ) < 2 ^ e := by positivity
  refine .inl ⟨?_, ?_⟩
  · rw [mul_lt_mul_iff_left₀ h]
    split_ifs <;> linarith
  · rw [mul_lt_mul_iff_left₀ h]
    linarith

/-- At most half a last bit away. -/
theorem bounds (h : InReach m e x) :
    ((m : ℚ) - 1 / 2) * 2 ^ e ≤ x ∧ x ≤ (m + 1 / 2) * 2 ^ e := by
  have hp : (0 : ℚ) < 2 ^ e := by positivity
  have hlow : ((m : ℚ) - 1 / 2) * 2 ^ e ≤
      (m - if m = 2 ^ 52 ∧ -1074 < e then 1 / 4 else 1 / 2) * 2 ^ e := by
    gcongr
    split_ifs <;> norm_num
  rcases h with ⟨h₁, h₂⟩ | ⟨-, h₁, h₂⟩
  · exact ⟨hlow.trans h₁.le, h₂.le⟩
  · exact ⟨hlow.trans h₁, h₂⟩

/-- The same, counted in last bits. -/
theorem nearestEven (h : InReach m e x) : NearestEven m (x / 2 ^ e) := by
  have hp : (0 : ℚ) < 2 ^ e := by positivity
  have hgap : (if m = 2 ^ 52 ∧ -1074 < e then 1 / 4 else 1 / 2 : ℚ) ≤ 1 / 2 := by
    split_ifs <;> norm_num
  rcases h with ⟨h₁, h₂⟩ | ⟨heven, h₁, h₂⟩
  · rw [← lt_div_iff₀ hp] at h₁
    rw [← div_lt_iff₀ hp] at h₂
    exact .inl ⟨by linarith, h₂⟩
  · rw [← le_div_iff₀ hp] at h₁
    rw [← div_le_iff₀ hp] at h₂
    exact .inr ⟨heven, by linarith, h₂⟩

/-- What rounds to a number has no bit above those of its mantissa. -/
theorem lt_of_canonical (h : InReach m e x) (hm : m < 2 ^ 53) : x < 2 ^ (e + 53) := by
  have hp : (0 : ℚ) < 2 ^ e := by positivity
  have : (m : ℚ) + 1 / 2 < 2 ^ 53 := by
    have : (m : ℚ) ≤ 2 ^ 53 - 1 := by
      have : m + 1 ≤ 2 ^ 53 := hm
      have : ((m + 1 : ℕ) : ℚ) ≤ (2 ^ 53 : ℕ) := Nat.cast_le.mpr this
      push_cast at this
      linarith
    linarith
  calc x ≤ (m + 1 / 2) * 2 ^ e := h.bounds.2
    _ < 2 ^ 53 * 2 ^ e := by gcongr
    _ = 2 ^ (e + 53) := by rw [zpow_add₀ (by norm_num)]; norm_num; ring

/-- Only the reach of a power of two goes below it, and by no more than a quarter. -/
theorem of_lt (h : InReach m e x) (hm : 2 ^ 52 ≤ m) (he : -1074 < e) (hx : x < 2 ^ (e + 52)) :
    m = 2 ^ 52 ∧ (2 ^ 52 - 1 / 4 : ℚ) * 2 ^ e ≤ x := by
  have hp : (0 : ℚ) < 2 ^ e := by positivity
  have hx' : x < 2 ^ 52 * 2 ^ e := by
    rwa [zpow_add₀ (by norm_num), mul_comm] at hx
  have hlow := h.bounds.1.trans_lt hx'
  rw [mul_lt_mul_iff_left₀ hp] at hlow
  have hmq : (m : ℚ) < (2 ^ 52 + 1 : ℕ) := by push_cast; linarith
  have hm' : m = 2 ^ 52 := by
    have : m < 2 ^ 52 + 1 := Nat.cast_lt.mp hmq
    omega
  subst hm'
  refine ⟨rfl, ?_⟩
  rw [InReach, if_pos ⟨rfl, he⟩] at h
  push_cast at h
  rcases h with ⟨h, -⟩ | ⟨-, h, -⟩
  · exact h.le
  · exact h

end InReach

namespace Binary64

/-- A quotient becomes a mantissa, rounded to its last bit, with that bit for its exponent. -/
theorem ofRatio_eq_ofRounded {num den : ℕ} (hnum : 0 < num) (negative : Bool) :
    ofRatio negative num den = ofRounded negative
      (divRoundEven (num * 2 ^ (-lastBit num den).toNat) (den * 2 ^ (lastBit num den).toNat))
      (lastBit num den) := by
  rw [ofRatio, if_neg (by omega)]

/-- A mantissa of 53 bits at most stays as it is. -/
theorem ofRounded_of_canonical {m : ℕ} {e : ℤ} (hc : Canonical m e) (negative : Bool) :
    ofRounded negative m e = .finite negative m e hc := by
  rw [ofRounded, if_neg (Nat.ne_of_lt hc.1), dif_pos hc]

/-- A carry leaves a power of two, and its exponent goes up. -/
theorem ofRounded_of_carry {e : ℤ} (hc : Canonical (2 ^ 52) e) (negative : Bool) :
    ofRounded negative (2 ^ 53) (e - 1) = .finite negative (2 ^ 52) e hc := by
  have he : e - 1 + 1 = e := by omega
  simp only [ofRounded, if_true, he]
  exact dif_pos hc

/-- The last bit that is kept of what is in the reach of a number is the number's own last bit.
Only below a power of two one bit more is kept, and the result carries. -/
theorem lastBit_of_inReach {m : ℕ} {e : ℤ} {num den : ℕ} (hc : Canonical m e) (hnum : 0 < num)
    (hden : 0 < den) (h : InReach m e (num / den)) :
    lastBit num den = e ∨ lastBit num den = e - 1 ∧ m = 2 ^ 52 ∧
      (2 ^ 52 - 1 / 4 : ℚ) * 2 ^ e ≤ num / den ∧ (num : ℚ) / den < 2 ^ (e + 52) := by
  obtain ⟨hm, he, -, hfull⟩ := hc
  obtain ⟨hle, hlt⟩ := leadingBit_spec hnum hden
  have hone : (1 : ℚ) < 2 := by norm_num
  have htop : leadingBit num den < e + 53 :=
    (zpow_lt_zpow_iff_right₀ hone).mp (hle.trans_lt (h.lt_of_canonical hm))
  unfold lastBit
  by_cases hbig : (2 : ℚ) ^ (e + 52) ≤ num / den
  · have := (zpow_lt_zpow_iff_right₀ hone).mp (hbig.trans_lt hlt)
    omega
  · rw [not_le] at hbig
    have := (zpow_lt_zpow_iff_right₀ hone).mp (hle.trans_lt hbig)
    rcases eq_or_lt_of_le he with rfl | he
    · omega
    · obtain ⟨hpower, hlow⟩ := h.of_lt (hfull.resolve_right (by omega)) he hbig
      have : (2 : ℚ) ^ (e + 51) ≤ num / den := by
        refine le_trans ?_ hlow
        rw [zpow_add₀ (by norm_num), mul_comm]
        gcongr
        norm_num
      have := leadingBit_eq hnum hden this (by rwa [show e + 51 + 1 = e + 52 by ring])
      exact .inr ⟨by omega, hpower, hlow, hbig⟩

/-- What is in the reach of a number rounds to it. -/
theorem ofRatio_of_inReach {m : ℕ} {e : ℤ} {num den : ℕ} (hc : Canonical m e) (hnum : 0 < num)
    (hden : 0 < den) (h : InReach m e (num / den)) (negative : Bool) :
    ofRatio negative num den = .finite negative m e hc := by
  rw [ofRatio_eq_ofRounded hnum]
  have hrounded := nearestEven_scaled num hden
  rcases lastBit_of_inReach hc hnum hden h with hlast | ⟨hlast, rfl, hlow, hhigh⟩
  · rw [hlast, (hrounded e).unique h.nearestEven, ofRounded_of_canonical hc]
  · have hp : (0 : ℚ) < 2 ^ (e - 1) := by positivity
    have hsplit : (2 : ℚ) ^ e = 2 * 2 ^ (e - 1) := by
      rw [← zpow_one_add₀ (by norm_num)]
      congr 1
      ring
    have hcarry : NearestEven (2 ^ 53) (num / den / 2 ^ (e - 1)) := by
      refine .inr ⟨by decide, ?_⟩
      rw [le_div_iff₀ hp, div_le_iff₀ hp]
      rw [hsplit] at hlow
      rw [zpow_add₀ (by norm_num), hsplit] at hhigh
      push_cast
      constructor <;> nlinarith
    rw [hlast, (hrounded (e - 1)).unique hcarry, ofRounded_of_carry hc]

/-! ### Results in range -/

/-- The last bit is the 53rd from the leading one, or the least that there is. -/
theorem lastBit_cases (num den : ℕ) : lastBit num den = leadingBit num den - 52 ∨
    lastBit num den = -1074 ∧ leadingBit num den - 52 ≤ -1074 := by
  unfold lastBit
  omega

/-- The mantissa before a carry: 53 bits or one more, and all of them in use above the least
exponent. -/
theorem mantissa_bounds {num den : ℕ} (hnum : 0 < num) (hden : 0 < den) :
    let k := lastBit num den
    let m := divRoundEven (num * 2 ^ (-k).toNat) (den * 2 ^ k.toNat)
    m ≤ 2 ^ 53 ∧ (2 ^ 52 ≤ m ∨ k = -1074) := by
  obtain ⟨hle, hlt⟩ := leadingBit_spec hnum hden
  have hcases := lastBit_cases num den
  intro k m
  have hp : (0 : ℚ) < 2 ^ k := by positivity
  have hrounded : NearestEven m (num / den / 2 ^ k) := nearestEven_scaled num hden k
  refine ⟨hrounded.le_of_le ?_, ?_⟩
  · rw [div_le_iff₀ hp]
    calc (num : ℚ) / den ≤ 2 ^ (leadingBit num den + 1) := hlt.le
      _ ≤ 2 ^ (53 + k) := zpow_le_zpow_right₀ (by norm_num) (by omega)
      _ = (2 ^ 53 : ℕ) * 2 ^ k := by rw [zpow_add₀ (by norm_num)]; norm_num
  · rcases hcases with hk | ⟨hk, -⟩
    · refine .inl (hrounded.ge_of_ge ?_)
      rw [le_div_iff₀ hp]
      calc (2 ^ 52 : ℕ) * (2 : ℚ) ^ k = 2 ^ leadingBit num den := by
            rw [show leadingBit num den = 52 + k by omega, zpow_add₀ (by norm_num)]
            norm_num
        _ ≤ num / den := hle
    · exact .inr hk

/-- Half a last bit above the greatest number: sizes from here on round to infinity. -/
def overflowFrom : ℚ := (2 ^ 53 - 1 / 2) * 2 ^ (971 : ℤ)

theorem overflowFrom_lt : overflowFrom < 2 ^ (1024 : ℤ) := by
  have hsplit : (2 : ℚ) ^ (1024 : ℤ) = 2 ^ 53 * 2 ^ (971 : ℤ) := by
    rw [← zpow_natCast, ← zpow_add₀ (by norm_num)]
    rfl
  rw [overflowFrom, hsplit]
  gcongr
  norm_num

theorem lt_overflowFrom : (2 : ℚ) ^ (1023 : ℤ) < overflowFrom := by
  have hsplit : (2 : ℚ) ^ (1023 : ℤ) = 2 ^ 52 * 2 ^ (971 : ℤ) := by
    rw [← zpow_natCast, ← zpow_add₀ (by norm_num)]
    rfl
  rw [overflowFrom, hsplit]
  gcongr
  norm_num

/-- A rounded mantissa is in range up to the greatest exponent, where it must not carry. -/
theorem isFinite_ofRounded_iff {m : ℕ} {e : ℤ} (negative : Bool) (hm : m ≤ 2 ^ 53)
    (he : -1074 ≤ e) (hfull : 2 ^ 52 ≤ m ∨ e = -1074) :
    (ofRounded negative m e).isFinite = true ↔ e < 971 ∨ e = 971 ∧ ¬ 2 ^ 53 ≤ m := by
  unfold ofRounded
  split_ifs with hcarry h h
  · obtain ⟨-, -, h, -⟩ := h
    exact iff_of_true rfl (.inl (by omega))
  · refine iff_of_false Bool.false_ne_true ?_
    rintro (hlt | ⟨-, hlt⟩)
    · exact h ⟨by norm_num, by omega, by omega, .inl le_rfl⟩
    · exact hlt hcarry.ge
  · obtain ⟨-, -, h, -⟩ := h
    exact iff_of_true rfl (by omega)
  · refine iff_of_false Bool.false_ne_true ?_
    intro hle
    exact h ⟨by omega, he, by omega, hfull⟩

/-- The fractions below the bound round to a finite number, and no others. -/
theorem isFinite_ofRatio_iff {num den : ℕ} (hden : 0 < den) (negative : Bool) :
    (ofRatio negative num den).isFinite = true ↔ (num : ℚ) / den < overflowFrom := by
  have hbelow := lt_overflowFrom
  rcases Nat.eq_zero_or_pos num with rfl | hnum
  · refine iff_of_true rfl (lt_trans ?_ hbelow)
    rw [Nat.cast_zero, zero_div]
    positivity
  obtain ⟨hle, hlt⟩ := leadingBit_spec hnum hden
  obtain ⟨hm, hfull⟩ := mantissa_bounds hnum hden
  have hcases := lastBit_cases num den
  have hlow : -1074 ≤ lastBit num den := le_max_right ..
  have hone : (1 : ℚ) ≤ 2 := by norm_num
  rw [ofRatio_eq_ofRounded hnum, isFinite_ofRounded_iff negative hm hlow hfull]
  -- the last bit that is kept settles all but the fractions next to the bound
  rcases lt_trichotomy (lastBit num den) 971 with hk | hk | hk
  · refine iff_of_true (.inl hk) (lt_of_lt_of_le hlt (le_trans ?_ hbelow.le))
    exact zpow_le_zpow_right₀ hone (by omega)
  · have hp : (0 : ℚ) < 2 ^ (971 : ℤ) := by positivity
    rw [hk, (nearestEven_scaled num hden 971).le_iff_of_even (by decide), le_div_iff₀ hp]
    rw [Nat.cast_pow, Nat.cast_ofNat, ← overflowFrom, not_le]
    simp
  · refine iff_of_false (by omega) (not_lt.mpr (overflowFrom_lt.le.trans (le_trans ?_ hle)))
    exact zpow_le_zpow_right₀ hone (by omega)

/-- What is well below the greatest number rounds to a finite one. -/
theorem isFinite_ofRatio {num den : ℕ} (hden : 0 < den) (h : (num : ℚ) / den < 2 ^ (1023 : ℤ))
    (negative : Bool) : (ofRatio negative num den).isFinite = true :=
  (isFinite_ofRatio_iff hden negative).mpr (h.trans lt_overflowFrom)

/-! ### Decimals -/

/-- A decimal exponent of 400 is beyond the range on either side. -/
theorem two_zpow_lt_ten_zpow : (2 : ℚ) ^ (1076 : ℤ) < 10 ^ (400 : ℤ) := by
  calc (2 : ℚ) ^ (1076 : ℤ) < 2 ^ (3 * 400 : ℤ) :=
        zpow_lt_zpow_right₀ (by norm_num) (by norm_num)
    _ = (2 ^ (3 : ℤ)) ^ (400 : ℤ) := zpow_mul ..
    _ ≤ 10 ^ (400 : ℤ) := zpow_le_zpow_left₀ (by norm_num) (by positivity) (by norm_num)

/-- What is not nearer to zero than to the smallest number is not cut off as zero. -/
theorem lt_exponent_of_le {digits : ℕ} {exponent : ℤ}
    (h : (2 : ℚ) ^ (-1075 : ℤ) ≤ digits * 10 ^ exponent) : -400 < exponent + digits.log2 := by
  by_contra hcut
  have hdigits : (digits : ℚ) ≤ 2 * 10 ^ (digits.log2 : ℤ) := by
    have hlog : digits < 2 ^ (digits.log2 + 1) := Nat.lt_log2_self
    have hpow : (2 : ℕ) ^ digits.log2 ≤ 10 ^ digits.log2 := Nat.pow_le_pow_left (by decide) _
    have : digits ≤ 2 * 10 ^ digits.log2 := by
      rw [Nat.pow_succ] at hlog
      omega
    exact_mod_cast this
  have hsmall : (2 : ℚ) ^ (-1075 : ℤ) ≤ 2 * 10 ^ (-400 : ℤ) := by
    calc (2 : ℚ) ^ (-1075 : ℤ) ≤ digits * 10 ^ exponent := h
      _ ≤ 2 * 10 ^ (digits.log2 : ℤ) * 10 ^ exponent := by gcongr
      _ = 2 * 10 ^ ((digits.log2 : ℤ) + exponent) := by
          rw [zpow_add₀ (by norm_num), mul_assoc]
      _ ≤ 2 * 10 ^ (-400 : ℤ) := by
          gcongr
          · norm_num
          · omega
  have hunits : (2 : ℚ) ^ (1076 : ℤ) = 2 * (2 ^ (-1075 : ℤ))⁻¹ := by
    rw [← zpow_neg, ← zpow_one_add₀ (by norm_num)]
    rfl
  have := two_zpow_lt_ten_zpow
  rw [zpow_neg 10, ← div_eq_mul_inv, le_div_iff₀ (by positivity)] at hsmall
  rw [hunits, ← div_eq_mul_inv, div_lt_iff₀ (by positivity)] at this
  linarith

/-- What is below `2 ^ 1024` is not cut off as infinite. -/
theorem exponent_lt_of_lt {digits : ℕ} {exponent : ℤ} (hdigits : 0 < digits)
    (h : (digits : ℚ) * 10 ^ exponent < 2 ^ (1024 : ℤ)) : exponent < 400 := by
  by_contra hlarge
  have hone : (1 : ℚ) ≤ digits := by exact_mod_cast hdigits
  have : (10 : ℚ) ^ (400 : ℤ) < 2 ^ (1076 : ℤ) := by
    calc (10 : ℚ) ^ (400 : ℤ) ≤ 10 ^ exponent := by
          gcongr
          · norm_num
          · omega
      _ ≤ digits * 10 ^ exponent := le_mul_of_one_le_left (by positivity) hone
      _ < 2 ^ (1024 : ℤ) := h
      _ ≤ 2 ^ (1076 : ℤ) := by
          gcongr
          · norm_num
          · norm_num
  exact absurd this (lt_asymm two_zpow_lt_ten_zpow)

/-- A decimal in the reach of a number is read as the number. -/
theorem ofDecimal_of_inReach {m : ℕ} {e : ℤ} {digits : ℕ} {exponent : ℤ} (hc : Canonical m e)
    (hm : 0 < m) (h : InReach m e (digits * 10 ^ exponent)) (negative : Bool) :
    ofDecimal negative digits exponent = .finite negative m e hc := by
  have hbelow : (2 : ℚ) ^ (-1075 : ℤ) ≤ digits * 10 ^ exponent := by
    have hone : (1 : ℚ) ≤ m := by exact_mod_cast hm
    refine le_trans ?_ h.bounds.1
    calc (2 : ℚ) ^ (-1075 : ℤ) = 2⁻¹ * 2 ^ (-1074 : ℤ) := by
          rw [← zpow_neg_one, ← zpow_add₀ (by norm_num)]
          rfl
      _ ≤ (m - 1 / 2) * 2 ^ e := by
          gcongr
          · linarith
          · linarith
          · norm_num
          · exact hc.2.1
  have habove : (digits : ℚ) * 10 ^ exponent < 2 ^ (1024 : ℤ) := by
    refine (h.lt_of_canonical hc.1).trans_le ?_
    gcongr
    · norm_num
    · have := hc.2.2.1
      omega
  have hdigits : 0 < digits := by
    rw [Nat.pos_iff_ne_zero]
    rintro rfl
    rw [Nat.cast_zero, zero_mul] at hbelow
    exact absurd hbelow (not_le.mpr (by positivity))
  have hlarge := exponent_lt_of_lt hdigits habove
  have hsmall := lt_exponent_of_le hbelow
  rw [ofDecimal, if_neg (by omega), if_neg (by omega), if_neg (by omega)]
  exact ofRatio_of_inReach hc (by positivity) (by positivity) (by rwa [decimal_ratio]) negative

/-- Exactly the decimals below the bound are read as a finite number. -/
theorem isFinite_ofDecimal_iff (negative : Bool) (digits : ℕ) (exponent : ℤ) :
    (ofDecimal negative digits exponent).isFinite = true ↔
      (digits : ℚ) * 10 ^ exponent < overflowFrom := by
  have hbound : (0 : ℚ) < overflowFrom := lt_trans (by positivity) lt_overflowFrom
  unfold ofDecimal
  split_ifs with hzero hlarge hsmall
  · refine iff_of_true rfl ?_
    rwa [hzero, Nat.cast_zero, zero_mul]
  · refine iff_of_false Bool.false_ne_true fun h => ?_
    have := exponent_lt_of_lt (Nat.pos_of_ne_zero hzero) (h.trans overflowFrom_lt)
    omega
  · refine iff_of_true rfl (lt_of_not_ge fun h => ?_)
    have hone : (2 : ℚ) ^ (-1075 : ℤ) ≤ 2 ^ (1023 : ℤ) :=
      zpow_le_zpow_right₀ (by norm_num) (by norm_num)
    have := lt_exponent_of_le (hone.trans (lt_overflowFrom.le.trans h))
    omega
  · rw [isFinite_ofRatio_iff (by positivity), decimal_ratio]

end Binary64

end Abacus
