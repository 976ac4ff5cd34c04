import Abacus.Proofs.Decimal.Grid
import Abacus.Proofs.Display.Typed

/-!
# Abacus — Display — Canonical texts

A finite number in full has one of two forms.  From `1e-6` to below `1e21`, and for a zero, it is
written with a point or none (`IsPlain`), and otherwise with a power of ten (`IsWithPower`); in both
forms no zero can be left out.  Either form is read as the number (`ofScientific?_display`).
-/

namespace Abacus

namespace Decimal

/-- A whole part and perhaps a point and places, the last of which is not a zero. -/
def IsPlain (cs : List Char) : Prop :=
  ∃ ws fs, cs = ws ++ fs ∧ IsWhole ws ∧ IsFraction fs ∧ fs.getLast? ≠ some '0'

/-- A leading digit that is not a zero, perhaps places, the last of which is not a zero, and a power
of ten with its sign. -/
def IsWithPower (cs : List Char) : Prop :=
  ∃ c fs sign es, cs = c :: fs ++ 'e' :: sign :: es ∧ Text.isPlainDigit c = true ∧ c ≠ '0' ∧
    IsFraction fs ∧ fs.getLast? ≠ some '0' ∧ (sign = '-' ∨ sign = '+') ∧ IsWhole es

section Forms
variable {cs ws fs : List Char}

/-- The two forms exclude each other. -/
theorem not_isWithPower_of_isPlain (h : IsPlain cs) : ¬ IsWithPower cs := by
  obtain ⟨ws, fs, rfl, hws, hfs, -⟩ := h
  rintro ⟨c, fs', sign, es, heq, -⟩
  have hletter : 'e' ∈ ws ++ fs := by
    rw [heq]
    simp
  rcases hws.isNumeric_append hfs 'e' hletter with h | h
  · cases h
  · cases h

/-- A point stands in a text exactly when it has a fraction. -/
theorem point_mem_iff (hws : IsWhole ws) (hfs : IsFraction fs) : '.' ∈ ws ++ fs ↔ fs ≠ [] := by
  have hdigits : '.' ∉ ws := fun h => by cases hws.isPlainDigit '.' h
  cases hfs with
  | none => simpa using hdigits
  | places => simp

theorem isPlain_of_isWhole (h : IsWhole ws) : IsPlain ws :=
  ⟨ws, [], by simp, h, .none, by simp⟩

end Forms

/-! ### The last digit -/

/-- A number that ten does not divide ends in another digit than zero. -/
theorem getLast?_digitsOf_ne {n : ℕ} (h : n % 10 ≠ 0) : (digitsOf n).getLast? ≠ some '0' := by
  have hlast : ∀ k < 10, k ≠ 0 → k.digitChar ≠ '0' := by decide
  rw [digitsOf_eq]
  split
  · simpa using hlast n ‹_› (by omega)
  · simpa using hlast (n % 10) (Nat.mod_lt n (by decide)) h

/-- The point goes before the last digit. -/
theorem getLast?_withPoint {ds : List Char} (hne : ds ≠ []) (places : ℕ) :
    (withPoint ds places).getLast? = ds.getLast? := by
  unfold withPoint
  split_ifs with hplaces
  · rfl
  dsimp only
  generalize hpadded : List.replicate (places + 1 - ds.length) '0' ++ ds = padded
  have hbehind : padded.drop (padded.length - places) ≠ [] := by
    rw [Ne, List.drop_eq_nil_iff, ← hpadded, List.length_append, List.length_replicate]
    omega
  have hlast : padded.getLast? = ds.getLast? := by
    rw [← hpadded, List.getLast?_append_of_ne_nil _ hne]
  rw [List.getLast?_append_of_ne_nil _ (List.cons_ne_nil _ _), List.getLast?_cons_of_ne_nil hbehind,
    ← hlast]
  conv_rhs => rw [← List.take_append_drop (padded.length - places) padded]
  rw [List.getLast?_append_of_ne_nil _ hbehind]

/-- A decimal in full, with as many places as its exponent asks for. -/
theorem positional_form {d : Decimal} (h : 0 < d.digits) (hlast : d.digits % 10 ≠ 0) :
    ∃ ws fs, d.positional = ws ++ fs ∧ IsWhole ws ∧ IsFraction fs ∧ fs.getLast? ≠ some '0' ∧
      fs.tail.length = (-d.exponent).toNat := by
  obtain ⟨c, cs, hcs, -, hc⟩ := exists_digitsOf_cons d.digits
  have hdigits := isPlainDigit_append_zeros
    (fun _ => isPlainDigit_of_mem_digitsOf (n := d.digits)) d.exponent.toNat
  have hends : d.positional.getLast? =
      (digitsOf d.digits ++ List.replicate d.exponent.toNat '0').getLast? :=
    getLast?_withPoint (by simp [digitsOf_ne_nil]) _
  rw [hcs, List.cons_append] at hdigits
  obtain ⟨ws, fs, htext, hws, hfs, hplaces⟩ := exists_withPoint (hc h) hdigits (-d.exponent).toNat
  rw [← List.cons_append, ← hcs] at htext
  refine ⟨ws, fs, htext, hws, hfs, ?_, hplaces⟩
  by_cases hnone : fs = []
  · simp [hnone]
  · have hnozeros : d.exponent.toNat = 0 := by
      rw [hfs.eq_nil_iff, hplaces] at hnone
      omega
    rw [positional, htext, hnozeros, List.replicate_zero, List.append_nil,
      List.getLast?_append_of_ne_nil _ hnone] at hends
    rw [hends]
    exact getLast?_digitsOf_ne hlast

/-- The point behind the first of the digits. -/
theorem withPoint_leading (c : Char) (cs : List Char) :
    withPoint (c :: cs) cs.length = c :: if cs = [] then [] else '.' :: cs := by
  cases cs with
  | nil => rfl
  | cons c' cs =>
      have hone : (c :: c' :: cs).length - (c' :: cs).length = 1 := by simp
      have hnone : (c' :: cs).length + 1 - (c :: c' :: cs).length = 0 := by simp
      rw [withPoint, if_neg (by simp)]
      simp only [hnone, List.replicate_zero, List.nil_append, hone]
      rfl

/-- With an exponent, a decimal has one digit before the point and the others behind it. -/
theorem scientific_form {d : Decimal} (h : 0 < d.digits) :
    ∃ c fs sign es, d.scientific 1 = c :: fs ++ 'e' :: sign :: es ∧ Text.isPlainDigit c = true ∧
      c ≠ '0' ∧ IsFraction fs ∧ fs.tail.length + 1 = (digitsOf d.digits).length ∧
      (fs ≠ [] → fs.getLast? = (digitsOf d.digits).getLast?) ∧ (sign = '-' ∨ sign = '+') ∧
      IsWhole es ∧ signedDigits? (sign :: es) = some d.leadingExponent := by
  obtain ⟨c, cs, hcs, hdigit, hc⟩ := exists_digitsOf_cons d.digits
  have hdigits : ∀ c ∈ digitsOf d.digits, Text.isPlainDigit c = true :=
    fun _ => isPlainDigit_of_mem_digitsOf
  have hsize := length_digitsOf_pos d.leadingExponent.natAbs
  have hunpadded : 1 - (digitsOf d.leadingExponent.natAbs).length = 0 := by omega
  refine ⟨c, if cs = [] then [] else '.' :: cs, if d.leadingExponent < 0 then '-' else '+',
    digitsOf d.leadingExponent.natAbs, ?_, hdigit, hc h, ?_, ?_, ?_, ?_, isWhole_digitsOf _,
    signedDigits?_power d.leadingExponent 0⟩
  · rw [scientific]
    simp only [hcs, List.length_cons, Nat.add_sub_cancel, withPoint_leading, hunpadded,
      List.replicate_zero, List.nil_append]
  · rw [hcs] at hdigits
    split_ifs with hnone
    · exact .none
    · exact .places hnone fun c hc => hdigits c (List.mem_cons_of_mem _ hc)
  · rw [hcs]
    split_ifs with hnone
    · rw [hnone]
      rfl
    · rfl
  · intro hsome
    have hnone : cs ≠ [] := fun hnone => hsome (if_pos hnone)
    rw [hcs, if_neg hnone, List.getLast?_cons_of_ne_nil hnone, List.getLast?_cons_of_ne_nil hnone]
  · split
    · exact .inl rfl
    · exact .inr rfl

/-- Digits that do not end in zero give a text with a power in its form. -/
theorem isWithPower_scientific {d : Decimal} (h : 0 < d.digits) (hlast : d.digits % 10 ≠ 0) :
    IsWithPower (d.scientific 1) := by
  obtain ⟨c, fs, sign, es, htext, hdigit, hc, hfs, -, hends, hsign, hes, -⟩ := scientific_form h
  refine ⟨c, fs, sign, es, htext, hdigit, hc, hfs, ?_, hsign, hes⟩
  by_cases hnone : fs = []
  · simp [hnone]
  · rw [hends hnone]
    exact getLast?_digitsOf_ne hlast

/-- A text that begins with a whole part has no sign to take off. -/
theorem splitSign_of_isWhole {ws : List Char} (h : IsWhole ws) (cs : List Char) :
    splitSign (ws ++ cs) = (false, ws ++ cs) := by
  obtain ⟨c, ws, rfl⟩ := List.exists_cons_of_ne_nil h.ne_nil
  have hc := h.isPlainDigit c List.mem_cons_self
  have hminus : c ≠ '-' := ne_of_isPlainDigit hc rfl
  have hplus : c ≠ '+' := ne_of_isPlainDigit hc rfl
  simp [splitSign, hminus, hplus]

end Decimal

namespace Binary64

/-! ### The form of a text -/

section Finite
variable {s : Bool} {m : ℕ} {e : ℤ} {hc : Canonical m e}

/-- What a number that is not zero is written as without an exponent: digits in its reach, and no
more places than any digits in its reach need. -/
structure IsFullText (m : ℕ) (e : ℤ) (ws fs : List Char) (d : Decimal) : Prop where
  whole : Decimal.IsWhole ws
  fraction : Decimal.IsFraction fs
  last : fs.getLast? ≠ some '0'
  read : Decimal.fixed? (ws ++ fs) = some d
  inReach : InReach m e d.toRat
  coarsest {k : ℕ} {g : ℤ} : g ≤ 0 → InReach m e (k * 10 ^ g) →
    fs.tail.length ≤ (-g).toNat ∧ ∃ j : ℕ, d.toRat = j * 10 ^ g

/-- Without an exponent, a number that is not zero has a point unless it is whole; the sign changes
nothing else. -/
theorem exists_isFullText (hm : 0 < m) (h : (finite s m e hc).IsShownInFull) :
    ∃ ws fs d, (∀ t, (finite t m e hc).display = String.ofList (withSign t (ws ++ fs))) ∧
      IsFullText m e ws fs d ∧ (fs = [] ↔ (finite s m e hc).isIntegral = true) := by
  -- whole numbers that are exact to the unit are written to the unit, not by their shortest digits
  cases hint : (finite s m e hc).isIntegral && (finite s m e hc).abs.lt exactBelow with
  | true =>
      rw [Bool.and_eq_true] at hint
      obtain ⟨n, hn, -⟩ := display_of_isIntegral hm hint.1 hint.2
      have hdisplay (t : Bool) : (finite t m e hc).display =
          String.ofList (withSign t (Decimal.digitsOf n ++ [])) := by
        obtain ⟨n', hn', hdisplay⟩ := display_of_isIntegral (s := t) hm hint.1 hint.2
        obtain rfl : n' = n := by exact_mod_cast hn'.trans hn.symm
        rw [hdisplay, List.append_nil]
      have hread := Decimal.fixed?_of_digits
        (fun _ => Decimal.isPlainDigit_of_mem_digitsOf) (Decimal.digitsOf_ne_nil n)
      rw [Decimal.ofDigits_digitsOf] at hread
      refine ⟨_, [], ⟨n, 0⟩, hdisplay, ⟨Decimal.isWhole_digitsOf n, .none, by simp,
        by rwa [List.append_nil], ?_, fun hg _ => ⟨Nat.zero_le _, ?_⟩⟩, iff_of_true rfl hint.1⟩
      · rw [Decimal.toRat, hn, zpow_zero, mul_one]
        exact InReach.self m e
      · exact exists_units (by decide) n hg
  | false =>
      obtain ⟨ws, fs, htext, hws, hfs, hlast, hplaces⟩ := Decimal.positional_form
        (Decimal.digits_shortest_pos hm e) (Decimal.digits_shortest_mod_ten_ne hm)
      obtain ⟨d, hd, hvalue⟩ := Decimal.fixed?_positional (Decimal.shortest m e)
      have hdisplay (t : Bool) : (finite t m e hc).display =
          String.ofList (withSign t (ws ++ fs)) := by
        have hfull : (finite t m e hc).IsShownInFull := h
        rw [display_of_shortest (s := t) hm hint, if_pos hfull, htext]
      rw [htext] at hd
      refine ⟨ws, fs, d, hdisplay, ⟨hws, hfs, hlast, hd, ?_, fun hg hreach => ?_⟩, ?_⟩
      · rw [hvalue]
        exact Decimal.inReach_shortest hm e
      · have hgrid := not_lt.mp fun hlt => Decimal.not_inReach_of_coarser hm hlt hreach
        rw [hplaces, hvalue]
        exact ⟨by omega, exists_units (by decide) _ hgrid⟩
      · rw [hfs.eq_nil_iff, hplaces, ← Decimal.exponent_shortest_nonneg_iff hm s hc]
        omega

/-- A number that is shown in full has a plain text, with a point unless it is whole. -/
theorem exists_isPlain (hm : 0 < m) (h : (finite s m e hc).IsShownInFull) :
    ∃ cs, (finite s m e hc).display = String.ofList (withSign s cs) ∧ Decimal.IsPlain cs ∧
      ('.' ∈ cs ↔ (finite s m e hc).isIntegral = false) := by
  obtain ⟨ws, fs, d, hdisplay, htext, hpoint⟩ := exists_isFullText hm h
  refine ⟨_, hdisplay s, ⟨ws, fs, rfl, htext.whole, htext.fraction, htext.last⟩, ?_⟩
  rw [Decimal.point_mem_iff htext.whole htext.fraction, Ne, hpoint, Bool.not_eq_true]

/-- Any other has a text with a power. -/
theorem exists_isWithPower (h : ¬ (finite s m e hc).IsShownInFull) :
    ∃ cs, (finite s m e hc).display = String.ofList (withSign s cs) ∧ Decimal.IsWithPower cs := by
  obtain ⟨hm, hdisplay⟩ := display_of_not_isShownInFull h
  exact ⟨_, hdisplay, Decimal.isWithPower_scientific (Decimal.digits_shortest_pos hm e)
    (Decimal.digits_shortest_mod_ten_ne hm)⟩

end Finite

/-- The two forms, by the size of the number; a zero has no sign. -/
theorem exists_form {v : Binary64} (hfinite : v.isFinite = true) :
    ∃ cs, v.display = String.ofList (withSign (v.isNegative && !v.isZero) cs) ∧
      (v.IsShownInFull ∧ Decimal.IsPlain cs ∧ ('.' ∈ cs ↔ v.isIntegral = false) ∨
        ¬ v.IsShownInFull ∧ Decimal.IsWithPower cs) := by
  obtain _ | _ | ⟨s, m, e, hc⟩ := v
  · cases hfinite
  · cases hfinite
  rcases Nat.eq_zero_or_pos m with hm | hm
  · have hzero : (finite s m e hc).isZero = true := isZero_iff.mpr hm
    refine ⟨['0'], ?_, .inl ⟨.inl hzero, Decimal.isPlain_of_isWhole .zero, ?_⟩⟩
    · rw [display_of_isZero hzero, hzero, Bool.not_true, Bool.and_false]
      rfl
    · simp [isIntegral_of_isZero hzero]
  have hsign : ((finite s m e hc).isNegative && !(finite s m e hc).isZero) = s := by
    have hzero : (finite s m e hc).isZero = false := by
      rw [Bool.eq_false_iff, Ne, isZero_iff]
      omega
    rw [hzero]
    exact Bool.and_true s
  rw [hsign]
  by_cases hfull : (finite s m e hc).IsShownInFull
  · obtain ⟨cs, hdisplay, hform⟩ := exists_isPlain hm hfull
    exact ⟨cs, hdisplay, .inl ⟨hfull, hform⟩⟩
  · obtain ⟨cs, hdisplay, hform⟩ := exists_isWithPower hfull
    exact ⟨cs, hdisplay, .inr ⟨hfull, hform⟩⟩

/-! ### Reading a text -/

/-- A literal is read the same behind a sign, and as the number nearest to it. -/
theorem ofScientific?_withSign {cs : List Char} {d : Decimal}
    (hunsigned : Decimal.splitSign cs = (false, cs)) (h : Decimal.scientific? cs = some d)
    (negative : Bool) :
    ofScientific? (withSign negative cs) = some (Decimal.nearest negative d) := by
  cases negative with
  | false => simp [withSign, ofScientific?, hunsigned, h]
  | true => simp [withSign, ofScientific?, Decimal.splitSign, h]

/-- What is shown reads as the number; of a zero the sign is lost. -/
theorem ofScientific?_display {v : Binary64} (hfinite : v.isFinite = true) :
    ∃ w, ofScientific? v.display.toList = some w ∧
      (w = v ∨ w.isZero = true ∧ v.isZero = true) := by
  by_cases hfull : v.IsShownInFull
  · obtain ⟨negative, ds, d, hdisplay, hd, hvalue⟩ := exists_numeral_of_isShownInFull hfinite hfull
    have hnumeric := (isLiteral_of_fixed? hd).numeric
    have hread : Decimal.scientific? ds = some d := by
      rw [Decimal.scientific?_of_unmarked fun c hc => Token.isNumeric_iff.mp (hnumeric c hc), hd]
    refine ⟨_, ?_, hvalue⟩
    rw [hdisplay, String.toList_ofList,
      ofScientific?_withSign (Decimal.splitSign_of_numeric hnumeric) hread]
  · obtain _ | _ | ⟨s, m, e, hc⟩ := v
    · cases hfinite
    · cases hfinite
    obtain ⟨hm, hdisplay⟩ := display_of_not_isShownInFull hfull
    obtain ⟨ws, fs, es, htext, hliteral⟩ :=
      Decimal.exists_isLiteralOf_scientific 1 (Decimal.digits_shortest_pos hm e)
    obtain ⟨d, hread, hvalue⟩ := hliteral.value
    refine ⟨_, ?_, .inl (Decimal.nearest_of_toRat_eq hc hm hvalue s)⟩
    rw [hdisplay, String.toList_ofList, htext,
      ofScientific?_withSign (Decimal.splitSign_of_isWhole hliteral.whole _) hread]

end Binary64

/-- **Texts of numbers are canonical.**  A finite number is shown without an exponent exactly when
it is a zero or its size is from `1e-6` to below `1e21`, and with one otherwise; there is a minus if
it is negative and not zero, and no zero in the text can be left out.  The text is read as the
number, or as a zero for either zero, which are both shown as `0`.  Without an exponent it has a
point exactly when the number is not whole, and it is an expression of the number; with one it is no
expression. -/
theorem display_canonical {v : Binary64} (hfinite : v.isFinite = true) :
    ∃ cs, v.display = String.ofList (withSign (v.isNegative && !v.isZero) cs) ∧
      (v.isZero = true → v.display = "0") ∧
      (Decimal.IsPlain cs ↔ v.IsShownInFull) ∧ (Decimal.IsWithPower cs ↔ ¬ v.IsShownInFull) ∧
      (∃ w, Binary64.ofScientific? v.display.toList = some w ∧
        (w = v ∨ w.isZero = true ∧ v.isZero = true)) ∧
      (v.IsShownInFull → ('.' ∈ cs ↔ v.isIntegral = false) ∧
        ∃ w, verdict .arithmetic v.display = .ok (.ok w) ∧
          (w = v ∨ w.isZero = true ∧ v.isZero = true)) ∧
      (¬ v.IsShownInFull → verdict .arithmetic v.display = .ok (.error .invalidCharacter)) := by
  obtain ⟨cs, hdisplay, hform⟩ := Binary64.exists_form hfinite
  have hzero : v.isZero = true → v.display = "0" := by
    intro hzero
    obtain _ | _ | _ := v
    · cases hzero
    · cases hzero
    · exact Binary64.display_of_isZero hzero
  refine ⟨cs, hdisplay, hzero, ?_, ?_, Binary64.ofScientific?_display hfinite, fun hfull => ?_,
    Binary64.verdict_display_of_exponent hfinite⟩
  · rcases hform with ⟨hfull, hplain, -⟩ | ⟨hfull, hpower⟩
    · exact iff_of_true hplain hfull
    · exact iff_of_false (fun hplain => Decimal.not_isWithPower_of_isPlain hplain hpower) hfull
  · rcases hform with ⟨hfull, hplain, -⟩ | ⟨hfull, hpower⟩
    · exact iff_of_false (Decimal.not_isWithPower_of_isPlain hplain) (not_not_intro hfull)
    · exact iff_of_true hpower hfull
  · rcases hform with ⟨-, -, hpoint⟩ | ⟨hnot, -⟩
    · exact ⟨hpoint, Binary64.verdict_display hfinite hfull⟩
    · exact absurd hfull hnot

/-- The negative of five times the least positive number. -/
theorem display_canonical_subnormal :
    (Binary64.finite true 5 (-1074) (by decide)).isFinite = true ∧
      ∃ cs, "-2.5e-323" = String.ofList ('-' :: cs) ∧ Decimal.IsWithPower cs ∧
        ∃ w, Binary64.ofScientific? "-2.5e-323".toList = some w ∧
          w = .finite true 5 (-1074) (by decide) := by
  have hfinite : (Binary64.finite true 5 (-1074) (by decide)).isFinite = true := rfl
  have htext : (Binary64.finite true 5 (-1074) (by decide)).display = "-2.5e-323" := by
    decide +kernel
  have hfull : ¬ (Binary64.finite true 5 (-1074) (by decide)).IsShownInFull := by
    decide +kernel
  obtain ⟨cs, hdisplay, -, -, hpower, ⟨w, hread, hw⟩, -, -⟩ := display_canonical hfinite
  rw [htext] at hdisplay hread
  refine ⟨hfinite, cs, hdisplay, hpower.mpr hfull, w, hread, ?_⟩
  rcases hw with hw | ⟨-, hzero⟩
  · exact hw
  · cases hzero

end Abacus
