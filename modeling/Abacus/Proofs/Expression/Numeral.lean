import Abacus.Proofs.Decimal.Text
import Abacus.Proofs.Expression.Reference

/-!
# Abacus — Expression — Written numbers

What the calculator makes of a number that has been written down.  A numeral with a sign or none
is an expression of one operand and has the number's value (`verdict_of_numeral`).  One with an
exponent is no expression, since no token begins with the letter (`verdict_of_exponent`).
-/

namespace Abacus

/-- Characters that are scanned as they have been typed. -/
def IsVerbatim (c : Char) : Prop :=
  plainSymbol c = c ∧ Text.isBlank c = false

/-- The normal form of a text of verbatim characters is that text. -/
theorem canonicalText_of_verbatim {cs : List Char} (h : ∀ c ∈ cs, IsVerbatim c) :
    (canonicalText (String.ofList cs)).toList = cs := by
  have hsymbols : cs.map plainSymbol = cs := by
    conv_rhs => rw [← List.map_id cs]
    exact List.map_congr_left fun c hc => (h c hc).1
  rw [canonicalText, String.toList_ofList, String.toList_ofList, hsymbols, Text.withoutBlanks,
    List.filter_eq_self]
  intro c hc
  simp [(h c hc).2]

theorem isVerbatim_of_isPlainDigit {c : Char} (h : Text.isPlainDigit c = true) : IsVerbatim c := by
  have hbounds : 48 ≤ c.toNat ∧ c.toNat ≤ 57 := by
    simpa [Text.isPlainDigit, Char.le_def, UInt32.le_iff_toNat_le] using h
  refine ⟨?_, ?_⟩
  · simp [plainSymbol, ne_of_isPlainDigit h (d := '×') rfl, ne_of_isPlainDigit h (d := '÷') rfl]
  · simp [Text.isBlank, Text.isSpace, Text.within, Text.spaceRanges]
    omega

theorem isVerbatim_of_isNumeric {c : Char} (h : Token.isNumeric c = true) : IsVerbatim c := by
  rcases Token.isNumeric_iff.mp h with h | rfl
  · exact isVerbatim_of_isPlainDigit h
  · exact ⟨rfl, rfl⟩

theorem isVerbatim_of_isSign {c : Char} (h : Token.isSign c = true) : IsVerbatim c := by
  rcases Token.isSign_iff.mp h with rfl | rfl <;> exact ⟨rfl, rfl⟩

/-! ### Signs -/

/-- The sign that is written before a number. -/
def minus? (negative : Bool) : Option Char :=
  if negative then some '-' else none

/-- The minus that a numeral may have is a sign, and so is its absence. -/
theorem isSigned_minus? (negative : Bool) : IsSigned (minus? negative) := by
  cases negative <;> simp [minus?, IsSigned, Token.isSign]

theorem withSign_eq (negative : Bool) (ds : List Char) :
    withSign negative ds = (minus? negative).toList ++ ds := by
  cases negative <;> rfl

theorem isVerbatim_of_mem_withSign {negative : Bool} {ds : List Char} (h : ∀ c ∈ ds, IsVerbatim c) :
    ∀ c ∈ withSign negative ds, IsVerbatim c := by
  intro c hc
  rw [withSign_eq] at hc
  rcases List.mem_append.mp hc with hc | hc
  · exact isVerbatim_of_isSign (isSigned_minus? negative c (Option.mem_toList.mp hc))
  · exact h c hc

/-- Digits that are read as a decimal are a literal. -/
theorem isLiteral_of_fixed? {ds : List Char} {d : Decimal} (h : Decimal.fixed? ds = some d) :
    IsLiteral ds :=
  (Decimal.fixed?_isSome_iff ds).mp (by rw [h]; rfl)

/-- A numeral with a minus or none before it is read as the number of its digits, signed. -/
theorem Binary64.ofFixed?_withSign {ds : List Char} {d : Decimal} (h : Decimal.fixed? ds = some d)
    (negative : Bool) : ofFixed? (withSign negative ds) = some (Decimal.nearest negative d) := by
  have hliteral := isLiteral_of_fixed? h
  cases negative with
  | false => simp [withSign, ofFixed?, Decimal.splitSign_of_numeric hliteral.numeric, h]
  | true => simp [withSign, ofFixed?, Decimal.splitSign, h]

/-! ### Answers -/

section Answers
variable {ds : List Char} {d : Decimal} {negative : Bool}

/-- A number that has been written without an exponent is an expression of its value. -/
theorem verdict_of_numeral (hd : Decimal.fixed? ds = some d)
    (hfinite : (Decimal.nearest negative d).isFinite = true) :
    verdict .arithmetic (String.ofList (withSign negative ds)) =
      .ok (.ok (Decimal.nearest negative d)) := by
  have hliteral := isLiteral_of_fixed? hd
  have hvalue := Binary64.ofFixed?_withSign hd negative
  have htext : (canonicalText (String.ofList (withSign negative ds))).toList =
      (minus? negative).toList ++ ds := by
    rw [canonicalText_of_verbatim (isVerbatim_of_mem_withSign fun c hc =>
      isVerbatim_of_isNumeric (hliteral.numeric c hc)), withSign_eq]
  have hreads : Reads .sum (canonicalText (String.ofList (withSign negative ds))).toList
      (.number (Decimal.nearest negative d)) := by
    rw [withSign_eq] at hvalue
    rw [htext]
    exact .term (.factor (.literal (isSigned_minus? negative) hliteral hvalue))
  rw [hreads.verdict_eq]
  simp [Tree.reference, Tree.inRange, Tree.numbers, Tree.value, hfinite]

/-- A numeral in range is read as the one number nearest to it. -/
theorem scanFrom_numeral (hd : Decimal.fixed? ds = some d)
    (hfinite : (Decimal.nearest negative d).isFinite = true) :
    Token.scanFrom .arithmetic true 0 (withSign negative ds) =
      .ok [.number (Decimal.nearest negative d)] := by
  have hvalue := Binary64.ofFixed?_withSign hd negative
  have htoken := Token.ofLiteral_of_some hvalue
  rw [if_pos hfinite] at htoken
  rw [withSign_eq] at hvalue htoken ⊢
  have hwritten := Written.literal (isSigned_minus? negative) (isLiteral_of_fixed? hd) hvalue 0
  have hscan := Token.scanFrom_text (hwritten.placed [] rfl .nil) 0
  simp only [List.append_nil, hwritten.text, List.mapM_cons, List.mapM_nil, Lexeme.token,
    htoken] at hscan
  exact hscan

/-- A number that has been written with an exponent is no expression. -/
theorem verdict_of_exponent {rest : List Char} (hd : Decimal.fixed? ds = some d)
    (hfinite : (Decimal.nearest negative d).isFinite = true) (hrest : ∀ c ∈ rest, IsVerbatim c) :
    verdict .arithmetic (String.ofList (withSign negative (ds ++ 'e' :: rest))) =
      .ok (.error .invalidCharacter) := by
  have hverbatim : ∀ c ∈ withSign negative (ds ++ 'e' :: rest), IsVerbatim c := by
    refine isVerbatim_of_mem_withSign fun c hc => ?_
    rcases List.mem_append.mp hc with hc | hc
    · exact isVerbatim_of_isNumeric ((isLiteral_of_fixed? hd).numeric c hc)
    · rcases List.mem_cons.mp hc with rfl | hc
      · exact ⟨rfl, rfl⟩
      · exact hrest c hc
  -- the numeral before the letter must be a token, or the failure would be another one
  have happend : withSign negative (ds ++ 'e' :: rest) = withSign negative ds ++ 'e' :: rest := by
    cases negative <;> rfl
  have hscan : Token.scanFrom .arithmetic true 0 (withSign negative (ds ++ 'e' :: rest)) =
      .error (.strayCharacter 'e' (withSign negative ds).length) := by
    rw [happend, Token.scanFrom_append rfl, scanFrom_numeral hd hfinite, Except.ok_bind,
      Nat.zero_add, Token.scanFrom]
    rfl
  rw [verdict_eq_bind, Token.scan, canonicalText_of_verbatim hverbatim, hscan]
  rfl

end Answers

end Abacus
