import Mathlib.Data.List.TakeWhile
import Abacus.Expression.Scan

/-!
# Abacus — Expression — Literals

Which runs of digits and points are numbers, and what token a number becomes.  A run is a number
exactly when it holds a digit and at most one point (`Decimal.fixed?_isSome_iff`), so a written
number fails to become a token only by lying outside the range of binary64
(`Token.ofLiteral_of_some`).
-/

namespace Abacus

/-- A run of digits and points with at least one digit and at most one point. -/
structure IsLiteral (ds : List Char) : Prop where
  numeric : ∀ c ∈ ds, Token.isNumeric c = true
  digit : ∃ c ∈ ds, Text.isPlainDigit c = true
  point : ds.count '.' ≤ 1

namespace Token

theorem isNumeric_iff {c : Char} :
    isNumeric c = true ↔ Text.isPlainDigit c = true ∨ c = '.' := by
  simp [isNumeric]

theorem isSign_iff {c : Char} : isSign c = true ↔ c = '+' ∨ c = '-' := by
  simp [isSign]

theorem isNumeric_of_isSign {c : Char} (h : isSign c = true) : isNumeric c = false := by
  rcases isSign_iff.mp h with rfl | rfl <;> decide

end Token

theorem IsLiteral.ne_nil {ds : List Char} (h : IsLiteral ds) : ds ≠ [] := by
  obtain ⟨c, hc, -⟩ := h.digit
  exact List.ne_nil_of_mem hc

/-! ### Reading -/

namespace Decimal

theorem count_point_of_digits {ds : List Char} (h : ∀ c ∈ ds, Text.isPlainDigit c = true) :
    ds.count '.' = 0 := by
  refine List.count_eq_zero.mpr fun hp => ?_
  exact absurd (h '.' hp) (by decide)

/-- Digits, a point and more digits write a number when there is a digit at all. -/
theorem isLiteral_around_point {ws ps : List Char} (hw : ∀ c ∈ ws, Text.isPlainDigit c = true) :
    IsLiteral (ws ++ '.' :: ps) ↔
      (∀ c ∈ ps, Text.isPlainDigit c = true) ∧ ¬ (ws = [] ∧ ps = []) := by
  constructor
  · intro h
    have hcount := h.point
    rw [List.count_append, count_point_of_digits hw, List.count_cons_self, Nat.zero_add] at hcount
    have hno : '.' ∉ ps := List.count_eq_zero.mp (by omega)
    refine ⟨fun c hc => ?_, ?_⟩
    · rcases Token.isNumeric_iff.mp (h.numeric c (by simp [hc])) with hd | rfl
      · exact hd
      · exact absurd hc hno
    · rintro ⟨hws, hps⟩
      obtain ⟨c, hc, hd⟩ := h.digit
      simp only [hws, hps, List.nil_append, List.mem_singleton] at hc
      subst hc
      exact absurd hd (by decide)
  · rintro ⟨hp, hne⟩
    refine ⟨fun c hc => ?_, ?_, ?_⟩
    · rcases List.mem_append.mp hc with hc | hc
      · exact Token.isNumeric_iff.mpr (.inl (hw c hc))
      · rcases List.mem_cons.mp hc with rfl | hc
        · exact Token.isNumeric_iff.mpr (.inr rfl)
        · exact Token.isNumeric_iff.mpr (.inl (hp c hc))
    · rcases List.eq_nil_or_concat ws with hws | ⟨ws', w, rfl⟩
      · obtain ⟨p, hpm⟩ := List.exists_mem_of_ne_nil ps fun e => hne ⟨hws, e⟩
        exact ⟨p, by simp [hpm], hp p hpm⟩
      · exact ⟨w, by simp, hw w (by simp)⟩
    · rw [List.count_append, List.count_cons_self, count_point_of_digits hw,
        count_point_of_digits hp]

/-- A text is read as a number exactly when it is a literal. -/
theorem fixed?_isSome_iff (cs : List Char) : (fixed? cs).isSome = true ↔ IsLiteral cs := by
  have hsplit := List.takeWhile_append_dropWhile (p := Text.isPlainDigit) (l := cs)
  have hwhole : ∀ c ∈ cs.takeWhile Text.isPlainDigit, Text.isPlainDigit c = true :=
    fun c hc => List.mem_takeWhile_imp hc
  have hhead := List.head?_dropWhile_not Text.isPlainDigit cs
  unfold fixed?
  generalize cs.takeWhile Text.isPlainDigit = ws at hsplit hwhole ⊢
  generalize cs.dropWhile Text.isPlainDigit = rest at hsplit hhead ⊢
  subst hsplit
  cases rest with
  | nil =>
      rw [List.append_nil]
      constructor
      · intro h
        have hne : ws ≠ [] := by rintro rfl; simp at h
        obtain ⟨c, hc⟩ := List.exists_mem_of_ne_nil ws hne
        refine ⟨fun c hc => Token.isNumeric_iff.mpr (.inl (hwhole c hc)), ⟨c, hc, hwhole c hc⟩, ?_⟩
        rw [count_point_of_digits hwhole]
        exact Nat.zero_le 1
      · intro h
        simp [h.ne_nil]
  | cons c ps =>
      have hc : Text.isPlainDigit c = false := by simpa using hhead
      by_cases hpoint : c = '.'
      · subst hpoint
        rw [isLiteral_around_point hwhole]
        by_cases hws : ws = [] <;> simp [hws]
      · have : ¬ IsLiteral (ws ++ c :: ps) := fun h => by
          rcases Token.isNumeric_iff.mp (h.numeric c (by simp)) with h' | h'
          · rw [hc] at h'; cases h'
          · exact hpoint h'
        simp [hpoint, this]

/-- A text of digits and points has no sign to take off. -/
theorem splitSign_of_numeric {ds : List Char} (h : ∀ c ∈ ds, Token.isNumeric c = true) :
    splitSign ds = (false, ds) := by
  unfold splitSign
  split
  · exact absurd (h '-' (by simp)) (by decide)
  · exact absurd (h '+' (by simp)) (by decide)
  · rfl

/-- A sign at the front is taken off, and a minus remembered. -/
theorem splitSign_of_isSign {s : Char} (h : Token.isSign s = true) (ds : List Char) :
    splitSign (s :: ds) = (s == '-', ds) := by
  rcases Token.isSign_iff.mp h with rfl | rfl <;> rfl

end Decimal

/-! ### Tokens -/

/-- The signs that may stand before a run: none, a plus or a minus. -/
def IsSigned (sign : Option Char) : Prop := ∀ s ∈ sign, Token.isSign s = true

theorem isSigned_none : IsSigned none := by
  simp [IsSigned]

/-- A run, signed or not, is read as a number exactly when it is a literal. -/
theorem Binary64.ofFixed?_isSome_iff {sign : Option Char} {ds : List Char} (hs : IsSigned sign)
    (hd : ∀ c ∈ ds, Token.isNumeric c = true) :
    (ofFixed? (sign.toList ++ ds)).isSome = true ↔ IsLiteral ds := by
  rw [← Decimal.fixed?_isSome_iff]
  cases sign with
  | none =>
      simp only [ofFixed?, Option.toList_none, List.nil_append, Decimal.splitSign_of_numeric hd,
        Option.isSome_map]
  | some s =>
      simp only [ofFixed?, Option.toList_some, List.singleton_append,
        Decimal.splitSign_of_isSign (hs s rfl), Option.isSome_map]

namespace Token

/-- A literal is a token exactly when its number is in range. -/
theorem ofLiteral_eq_ok_iff {cs : List Char} {t : Token} :
    ofLiteral cs = .ok t ↔
      ∃ v, Binary64.ofFixed? cs = some v ∧ v.isFinite = true ∧ t = .number v := by
  unfold ofLiteral
  constructor
  · intro h
    split at h
    · cases h
    · next v hv =>
        split at h
        · next hfin => cases h; exact ⟨v, hv, hfin, rfl⟩
        · cases h
  · rintro ⟨v, hv, hfin, rfl⟩
    simp [hv, hfin]

/-- A written number becomes a token unless it is out of range. -/
theorem ofLiteral_of_some {cs : List Char} {v : Binary64} (h : Binary64.ofFixed? cs = some v) :
    ofLiteral cs =
      if v.isFinite then .ok (.number v) else .error (.numberOutOfRange (String.ofList cs)) := by
  simp [ofLiteral, h]

end Token

end Abacus
