import Abacus.Decimal.Literal
import Abacus.Proofs.Decimal.Text

/-!
# Abacus — Decimal — Literals

A literal is a whole part, a fraction and a power of ten, not both of the last two missing
(`IsLiteralOf`), and it is read with the value that it has (`exists_isLiteralOf_literal`).  So the
literal of a finite number is read as the number, a zero with its sign (`exists_literal`).
-/

namespace Abacus.Decimal

/-! ### The parts of a number -/

/-- A zero, or digits that do not begin with one. -/
inductive IsWhole : List Char → Prop where
  | zero : IsWhole ['0']
  | digits {d : Char} {ds : List Char} (hd : d ≠ '0')
      (hds : ∀ c ∈ d :: ds, Text.isPlainDigit c = true) : IsWhole (d :: ds)

/-- Nothing, or a point with digits behind it. -/
inductive IsFraction : List Char → Prop where
  | none : IsFraction []
  | places {ps : List Char} (hne : ps ≠ []) (hps : ∀ c ∈ ps, Text.isPlainDigit c = true) :
      IsFraction ('.' :: ps)

/-- Nothing, or a power of ten with its sign. -/
inductive IsPower : List Char → Prop where
  | none : IsPower []
  | signed {sign : Char} {ds : List Char} (hsign : sign = '-' ∨ sign = '+') (hne : ds ≠ [])
      (hds : ∀ c ∈ ds, Text.isPlainDigit c = true) : IsPower ('e' :: sign :: ds)

/-- A text with a point or a power of ten that writes the value of a decimal. -/
structure IsLiteralOf (ws fs es : List Char) (d : Decimal) : Prop where
  whole : IsWhole ws
  fraction : IsFraction fs
  power : IsPower es
  marked : fs ≠ [] ∨ es ≠ []
  value : ∃ d', scientific? (ws ++ (fs ++ es)) = some d' ∧ d'.toRat = d.toRat

section Parts
variable {ws fs es : List Char}

theorem IsWhole.isPlainDigit (h : IsWhole ws) : ∀ c ∈ ws, Text.isPlainDigit c = true := by
  cases h with
  | zero => simp [Text.isPlainDigit]
  | digits _ hds => exact hds

theorem IsWhole.ne_nil (h : IsWhole ws) : ws ≠ [] := by
  cases h <;> exact List.cons_ne_nil _ _

/-- The digits of a number may stand before a point. -/
theorem isWhole_digitsOf (n : ℕ) : IsWhole (digitsOf n) := by
  rcases Nat.eq_zero_or_pos n with rfl | hn
  · exact .zero
  · obtain ⟨d, ds, hds, -, hd⟩ := exists_digitsOf_cons n
    have hdigits : ∀ c ∈ digitsOf n, Text.isPlainDigit c = true :=
      fun _ => isPlainDigit_of_mem_digitsOf
    rw [hds] at hdigits ⊢
    exact .digits (hd hn) hdigits

theorem IsFraction.isNumeric (h : IsFraction fs) :
    ∀ c ∈ fs, Text.isPlainDigit c = true ∨ c = '.' := by
  cases h with
  | none => nofun
  | places _ hps => exact List.forall_mem_cons.mpr ⟨.inr rfl, fun c hc => .inl (hps c hc)⟩

/-- Before the power of ten there are digits and a point. -/
theorem IsWhole.isNumeric_append (hws : IsWhole ws) (hfs : IsFraction fs) :
    ∀ c ∈ ws ++ fs, Text.isPlainDigit c = true ∨ c = '.' := by
  intro c hc
  rcases List.mem_append.mp hc with hc | hc
  · exact .inl (hws.isPlainDigit c hc)
  · exact hfs.isNumeric c hc

/-- There is no point exactly when there are no places. -/
theorem IsFraction.eq_nil_iff (h : IsFraction fs) : fs = [] ↔ fs.tail.length = 0 := by
  cases h with
  | none => simp
  | places hne _ => simpa using hne

/-- The digits before and behind the point of digits that do not begin with a zero. -/
theorem exists_withPoint {d : Char} {ds : List Char} (hd : d ≠ '0')
    (hds : ∀ c ∈ d :: ds, Text.isPlainDigit c = true) (places : ℕ) :
    ∃ ws fs, withPoint (d :: ds) places = ws ++ fs ∧ IsWhole ws ∧ IsFraction fs ∧
      fs.tail.length = places := by
  unfold withPoint
  split_ifs with hplaces
  · exact ⟨d :: ds, [], by simp, .digits hd hds, .none, hplaces.symm⟩
  by_cases hfew : (d :: ds).length ≤ places
  · -- too few digits: zeros stand before them, one of these before the point
    obtain ⟨k, hk⟩ : ∃ k, places + 1 - (d :: ds).length = k + 1 :=
      ⟨places - (d :: ds).length, by omega⟩
    have hpadded : List.replicate (places + 1 - (d :: ds).length) '0' ++ d :: ds =
        '0' :: (List.replicate k '0' ++ d :: ds) := by
      rw [hk, List.replicate_succ, List.cons_append]
    have hlength : ('0' :: (List.replicate k '0' ++ d :: ds)).length - places = 1 := by
      rw [List.length_cons, List.length_append, List.length_replicate]
      omega
    refine ⟨['0'], '.' :: (List.replicate k '0' ++ d :: ds), ?_, .zero, .places ?_ ?_, ?_⟩
    · simp only [hpadded, hlength]
      rfl
    · simp
    · exact isPlainDigit_zeros_append hds k
    · rw [List.tail_cons, List.length_append, List.length_replicate]
      omega
  · obtain ⟨k, hk⟩ : ∃ k, (d :: ds).length - places = k + 1 :=
      ⟨(d :: ds).length - places - 1, by omega⟩
    have hnone : places + 1 - (d :: ds).length = 0 := by omega
    refine ⟨(d :: ds).take (k + 1), '.' :: (d :: ds).drop (k + 1), ?_, ?_, .places ?_ ?_, ?_⟩
    · simp only [hnone, List.replicate_zero, List.nil_append, hk]
    · rw [List.take_succ_cons]
      refine .digits hd fun c hc => hds c ?_
      exact List.mem_of_mem_take (i := k + 1) (by rwa [List.take_succ_cons])
    · exact List.ne_nil_of_length_pos (by rw [List.length_drop]; omega)
    · exact fun c hc => hds c (List.mem_of_mem_drop hc)
    · rw [List.tail_cons, List.length_drop]
      omega

end Parts

/-! ### Reading a literal -/

/-- Without a mark for a power, a literal is read in full. -/
theorem scientific?_of_unmarked {cs : List Char}
    (h : ∀ c ∈ cs, Text.isPlainDigit c = true ∨ c = '.') : scientific? cs = fixed? cs := by
  have hdrop : cs.dropWhile (fun c => !(c == 'e' || c == 'E')) = [] := by
    rw [List.dropWhile_eq_nil_iff]
    intro c hc
    rcases h c hc with hc | rfl
    · simp [ne_of_isPlainDigit hc (d := 'e') rfl, ne_of_isPlainDigit hc (d := 'E') rfl]
    · rfl
  rw [scientific?, hdrop]

/-- With one, the power is added to the exponent. -/
theorem scientific?_of_power {cs power : List Char} {d : Decimal} {e : ℤ}
    (h : ∀ c ∈ cs, Text.isPlainDigit c = true ∨ c = '.') (hd : fixed? cs = some d)
    (he : signedDigits? power = some e) :
    scientific? (cs ++ 'e' :: power) = some ⟨d.digits, d.exponent + e⟩ := by
  have hmark : ∀ c ∈ cs, (!(c == 'e' || c == 'E')) = true := by
    intro c hc
    rcases h c hc with hc | rfl
    · simp [ne_of_isPlainDigit hc (d := 'e') rfl, ne_of_isPlainDigit hc (d := 'E') rfl]
    · rfl
  have hdrop : (cs ++ 'e' :: power).dropWhile (fun c => !(c == 'e' || c == 'E')) =
      'e' :: power := by
    rw [List.dropWhile_append_of_pos hmark]
    rfl
  have htake : (cs ++ 'e' :: power).takeWhile (fun c => !(c == 'e' || c == 'E')) = cs := by
    rw [List.takeWhile_append_of_pos hmark]
    simp
  rw [scientific?, hdrop]
  simp only [htake, hd, he]
  rfl

/-- The digits of a power are read behind its sign. -/
theorem signedDigits?_of_sign {ds : List Char} (hne : ds ≠ [])
    (hds : ∀ c ∈ ds, Text.isPlainDigit c = true) (negative : Bool) :
    signedDigits? ((if negative then '-' else '+') :: ds) =
      some (if negative then -(ofDigits ds : ℤ) else ofDigits ds) := by
  have hall : ds.all Text.isPlainDigit = true := List.all_eq_true.mpr hds
  cases negative <;> simp [signedDigits?, splitSign, hall, hne]

/-- A power of ten is read as it is, whatever zeros it is filled up with. -/
theorem signedDigits?_power (e : ℤ) (k : ℕ) :
    signedDigits? ((if e < 0 then '-' else '+') :: (List.replicate k '0' ++ digitsOf e.natAbs)) =
      some e := by
  have hne : List.replicate k '0' ++ digitsOf e.natAbs ≠ [] := by simp [digitsOf_ne_nil]
  have hread := signedDigits?_of_sign hne
    (isPlainDigit_zeros_append (fun _ => isPlainDigit_of_mem_digitsOf) k) (decide (e < 0))
  simp only [decide_eq_true_eq, ofDigits_zeros_append, ofDigits_digitsOf] at hread
  rw [hread, Option.some_inj]
  split_ifs <;> omega

/-- With an exponent a decimal is read as it is. -/
theorem exists_isLiteralOf_scientific (width : ℕ) {d : Decimal} (h : 0 < d.digits) :
    ∃ ws fs es, d.scientific width = ws ++ (fs ++ es) ∧ IsLiteralOf ws fs es d := by
  obtain ⟨c, cs, hcs, -, hc⟩ := exists_digitsOf_cons d.digits
  have hdigits : ∀ c ∈ digitsOf d.digits, Text.isPlainDigit c = true :=
    fun _ => isPlainDigit_of_mem_digitsOf
  obtain ⟨ws, fs, htext, hws, hfs, -⟩ :=
    exists_withPoint (hc h) (hcs ▸ hdigits) ((digitsOf d.digits).length - 1)
  rw [← hcs] at htext
  have hpower := signedDigits?_power d.leadingExponent
    (width - (digitsOf d.leadingExponent.natAbs).length)
  have hfixed := fixed?_withPoint hdigits (digitsOf_ne_nil d.digits)
    ((digitsOf d.digits).length - 1)
  rw [htext] at hfixed
  refine ⟨ws, fs, 'e' :: (if d.leadingExponent < 0 then '-' else '+') ::
      (List.replicate (width - (digitsOf d.leadingExponent.natAbs).length) '0' ++
        digitsOf d.leadingExponent.natAbs), ?_, hws, hfs, .signed ?_ ?_ ?_,
    .inr (List.cons_ne_nil _ _), d, ?_, rfl⟩
  · rw [scientific]
    simp only [htext, List.append_assoc]
  · split
    · exact .inl rfl
    · exact .inr rfl
  · simp [digitsOf_ne_nil]
  · exact isPlainDigit_zeros_append (fun _ => isPlainDigit_of_mem_digitsOf) _
  · rw [← List.append_assoc, scientific?_of_power (hws.isNumeric_append hfs) hfixed hpower]
    have hlength := length_digitsOf_pos d.digits
    have hlead : d.leadingExponent = d.exponent + (digitsOf d.digits).length - 1 := rfl
    have hsum : -(((digitsOf d.digits).length - 1 : ℕ) : ℤ) + d.leadingExponent = d.exponent := by
      omega
    rw [ofDigits_digitsOf, hsum]

theorem isFraction_zero : IsFraction ['.', '0'] :=
  .places (by simp) (by simp; rfl)

/-- A whole number in full is read with a zero behind its point. -/
theorem isLiteralOf_whole {d : Decimal} (h : 0 < d.digits) (hwhole : 0 ≤ d.exponent) :
    IsLiteralOf d.positional ['.', '0'] [] d := by
  obtain ⟨c, cs, hcs, -, hc⟩ := exists_digitsOf_cons d.digits
  have hdigits := isPlainDigit_append_zeros
    (fun _ => isPlainDigit_of_mem_digitsOf (n := d.digits)) d.exponent.toNat
  have hplaces : (-d.exponent).toNat = 0 := by omega
  have hws : IsWhole (digitsOf d.digits ++ List.replicate d.exponent.toNat '0') := by
    rw [hcs, List.cons_append] at hdigits ⊢
    exact .digits (hc h) hdigits
  rw [positional, hplaces, withPoint, if_pos rfl]
  have hread : scientific? (digitsOf d.digits ++ List.replicate d.exponent.toNat '0' ++
      (['.', '0'] ++ [])) =
        some ⟨ofDigits (digitsOf d.digits ++ List.replicate d.exponent.toNat '0' ++ ['0']),
          -1⟩ := by
    rw [List.append_nil, scientific?_of_unmarked (hws.isNumeric_append isFraction_zero),
      fixed?_of_point hdigits (by simp; rfl) (by simp)]
    rfl
  refine ⟨hws, isFraction_zero, .none, .inl (by simp), _, hread, ?_⟩
  have hzero := ofDigits_append_zeros
    (digitsOf d.digits ++ List.replicate d.exponent.toNat '0') 1
  rw [List.replicate_one] at hzero
  rw [toRat, toRat, hzero, ofDigits_append_zeros, ofDigits_digitsOf]
  obtain ⟨k, hk⟩ := Int.eq_ofNat_of_zero_le hwhole
  rw [hk]
  push_cast
  simp

/-- In full, a decimal with a fraction is read with the value that it has. -/
theorem exists_isLiteralOf_positional {d : Decimal} (h : 0 < d.digits) (hwhole : d.exponent < 0) :
    ∃ ws fs, d.positional = ws ++ (fs ++ []) ∧ IsLiteralOf ws fs [] d := by
  obtain ⟨c, cs, hcs, -, hc⟩ := exists_digitsOf_cons d.digits
  have hdigits := isPlainDigit_append_zeros
    (fun _ => isPlainDigit_of_mem_digitsOf (n := d.digits)) d.exponent.toNat
  obtain ⟨d', hd', hvalue⟩ := fixed?_positional d
  rw [positional] at hd' ⊢
  rw [hcs, List.cons_append] at hd' hdigits ⊢
  obtain ⟨ws, fs, htext, hws, hfs, hplaces⟩ := exists_withPoint (hc h) hdigits (-d.exponent).toNat
  have hne : fs ≠ [] := by
    rw [Ne, hfs.eq_nil_iff, hplaces]
    omega
  refine ⟨ws, fs, by rw [htext, List.append_nil], hws, hfs, .none, .inl hne, d', ?_, hvalue⟩
  rw [List.append_nil, scientific?_of_unmarked (hws.isNumeric_append hfs), ← htext, hd']

theorem isLiteralOf_zero : IsLiteralOf ['0'] ['.', '0'] [] ⟨0, 0⟩ where
  whole := .zero
  fraction := isFraction_zero
  power := .none
  marked := .inl (by simp)
  value := ⟨⟨0, -1⟩, by decide, by simp [toRat]⟩

/-- The text of a decimal is a literal of it, in whichever form it is written. -/
theorem exists_isLiteralOf_literal {d : Decimal} (h : 0 < d.digits ∨ d = ⟨0, 0⟩) :
    ∃ ws fs es, d.literal = ws ++ (fs ++ es) ∧ IsLiteralOf ws fs es d := by
  rcases h with h | rfl
  · unfold literal
    split_ifs with _ hwhole
    · exact ⟨_, _, [], by rw [List.append_nil], isLiteralOf_whole h hwhole⟩
    · obtain ⟨ws, fs, htext, hliteral⟩ := exists_isLiteralOf_positional h (not_le.mp hwhole)
      exact ⟨ws, fs, [], by rw [List.append_nil, htext], hliteral⟩
    · exact exists_isLiteralOf_scientific 2 h
  · exact ⟨_, _, _, by decide, isLiteralOf_zero⟩

/-! ### Literals of binary64 numbers -/

/-- The shortest digits of a number that is not zero are not all zeros. -/
theorem digits_shortest_pos {m : ℕ} (hm : 0 < m) (e : ℤ) : 0 < (shortest m e).digits := by
  have hlow : 0 < ((m : ℚ) - 1 / 2) * 2 ^ e := by
    have hone : (1 : ℚ) ≤ m := by exact_mod_cast hm
    have hhalf : (0 : ℚ) < m - 1 / 2 := by linarith
    positivity
  have hvalue := hlow.trans_le (inReach_shortest hm e).bounds.1
  rw [Nat.pos_iff_ne_zero]
  intro hzero
  rw [toRat, hzero, Nat.cast_zero, zero_mul] at hvalue
  exact lt_irrefl _ hvalue

/-- The number that a literal is read as. -/
theorem exists_literal {s : Bool} {m : ℕ} {e : ℤ} (hc : Canonical m e) :
    ∃ ws fs es d,
      (Binary64.finite s m e hc).literal = String.ofList (withSign s (ws ++ (fs ++ es))) ∧
      IsLiteralOf ws fs es d ∧
      ∀ d', d'.toRat = d.toRat → nearest s d' = .finite s m e hc := by
  rcases Nat.eq_zero_or_pos m with rfl | hm
  · obtain rfl : e = -1074 := by
      obtain ⟨-, -, -, hsmall | he⟩ := hc
      · exact absurd hsmall (by decide)
      · exact he
    refine ⟨_, _, _, _, ?_, isLiteralOf_zero, fun d' hd' => ?_⟩
    · cases s <;> rfl
    · have hzero : d'.digits = 0 := by
        have : (d'.digits : ℚ) * 10 ^ d'.exponent = 0 := by simpa [toRat] using hd'
        have hpower : (10 : ℚ) ^ d'.exponent ≠ 0 := by positivity
        exact_mod_cast (mul_eq_zero.mp this).resolve_right hpower
      rw [nearest, Binary64.ofDecimal, if_pos hzero]
      rfl
  · obtain ⟨ws, fs, es, htext, hliteral⟩ :=
      exists_isLiteralOf_literal (.inl (digits_shortest_pos hm e))
    refine ⟨ws, fs, es, _, ?_, hliteral, fun d' hd' => nearest_of_toRat_eq hc hm hd' s⟩
    rw [Binary64.literal, shortestOf, if_neg (Nat.ne_of_gt hm), htext]

end Abacus.Decimal
