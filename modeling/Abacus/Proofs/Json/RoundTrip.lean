import Abacus.Json.Parser
import Abacus.Json.Printer
import Abacus.Proofs.Decimal.Literal
import Abacus.Proofs.Text.Lines

/-!
# Abacus — Json — Writing and reading back

A document comes back from its text (`parse?_text`), when it can be written at all and no object in
it has two fields of one name.  Each kind of value is read off the front of a text, whatever closes
it behind; the fuel that reading takes is twice the length of what is read, one step for a value and
one for the step between two values.  Texts of documents have no carriage return in them, so that
unified line ends leave them alone (`unifyNewlines_text`).
-/

namespace Abacus.Json

/-! ### Values that come back -/

mutual

/-- A value that is read as it was written: nothing foreign in it, no integer with too many digits,
and no field of one name twice. -/
def ReadsBack : Json → Prop
  | .int i         => (Decimal.digitsOf i.natAbs).length ≤ Decimal.digitLimit
  | .array items   => ItemsReadBack items
  | .object fields => FieldsReadBack fields
  | .foreign       => False
  | _              => True

def ItemsReadBack : List Json → Prop
  | []     => True
  | v :: r => ReadsBack v ∧ ItemsReadBack r

def FieldsReadBack : List (String × Json) → Prop
  | []          => True
  | (n, v) :: r => n ∉ r.map Prod.fst ∧ ReadsBack v ∧ FieldsReadBack r

end

mutual

/-- No object in a value has two fields of one name. -/
def NamesDistinct : Json → Prop
  | .array items   => ItemsNamesDistinct items
  | .object fields => FieldsNamesDistinct fields
  | _              => True

def ItemsNamesDistinct : List Json → Prop
  | []     => True
  | v :: r => NamesDistinct v ∧ ItemsNamesDistinct r

def FieldsNamesDistinct : List (String × Json) → Prop
  | []          => True
  | (n, v) :: r => n ∉ r.map Prod.fst ∧ NamesDistinct v ∧ FieldsNamesDistinct r

end

mutual

/-- What comes back is what can be written, with no names repeated. -/
theorem readsBack_iff : ∀ v : Json, v.ReadsBack ↔ v.isWritable = true ∧ v.NamesDistinct
  | .array items => by
      rw [ReadsBack, isWritable, NamesDistinct]
      exact itemsReadBack_iff items
  | .object fields => by
      rw [ReadsBack, isWritable, NamesDistinct]
      exact fieldsReadBack_iff fields
  | .null | .bool _ | .int _ | .float _ | .string _ | .foreign => by
      simp [ReadsBack, isWritable, NamesDistinct]

theorem itemsReadBack_iff : ∀ vs : List Json,
    ItemsReadBack vs ↔ itemsWritable vs = true ∧ ItemsNamesDistinct vs
  | [] => by simp [ItemsReadBack, itemsWritable, ItemsNamesDistinct]
  | v :: vs => by
      rw [ItemsReadBack, itemsWritable, ItemsNamesDistinct, readsBack_iff v, itemsReadBack_iff vs,
        Bool.and_eq_true, and_and_and_comm]

theorem fieldsReadBack_iff : ∀ fs : List (String × Json),
    FieldsReadBack fs ↔ fieldsWritable fs = true ∧ FieldsNamesDistinct fs
  | [] => by simp [FieldsReadBack, fieldsWritable, FieldsNamesDistinct]
  | (n, v) :: fs => by
      rw [FieldsReadBack, fieldsWritable, FieldsNamesDistinct, readsBack_iff v,
        fieldsReadBack_iff fs, Bool.and_eq_true, and_and_and_comm, and_left_comm]

end

/-- What may stand behind a value: nothing, a comma, or what closes a list or an object. -/
def Closes (rest : List Char) : Prop :=
  ∀ c ∈ rest.head?, c = ',' ∨ c = ']' ∨ c = '\x7d'

theorem closes_nil : Closes [] := nofun

theorem closes_comma (rest : List Char) : Closes (',' :: rest) := by simp [Closes]

theorem closes_bracket (rest : List Char) : Closes (']' :: rest) := by simp [Closes]

theorem closes_brace (rest : List Char) : Closes ('\x7d' :: rest) := by simp [Closes]

/-! ### Strings -/

/-- An escape that stands for no surrogate is a character of its own. -/
theorem unicodeEscape?_of_unit {a b c d : Char} {n : ℕ} (h : unit? a b c d = some n)
    (hn : n < 0xd800) (rest : List Char) :
    unicodeEscape? (a :: b :: c :: d :: rest) = some (Char.ofNat n, rest) := by
  have hpaired (low : ℕ) : paired? n low = none := if_neg (by omega)
  have hchar : charOfUnit n = Char.ofNat n := if_neg (by omega)
  simp only [unicodeEscape?, h, Option.bind_eq_bind, Option.bind_some, Option.pure_def]
  split
  · next e f g h more =>
      cases unit? e f g h <;> simp [hpaired, hchar]
  · rw [hchar]

/-- Four hexadecimal digits are read as the character they were written for. -/
theorem unicodeEscape?_hexDigits {n : ℕ} (h : n < 0x20) (rest : List Char) :
    unicodeEscape? (Text.hexDigits 4 n ++ rest) = some (Char.ofNat n, rest) := by
  have hunit : ∀ n < 0x20, (Text.hexDigits 4 n).length = 4 ∧
      unit? (Text.hexDigits 4 n)[0]! (Text.hexDigits 4 n)[1]! (Text.hexDigits 4 n)[2]!
        (Text.hexDigits 4 n)[3]! = some n := by decide
  obtain ⟨hlength, hds⟩ := hunit n h
  generalize Text.hexDigits 4 n = ds at hlength hds ⊢
  match ds, hlength, hds with
  | [a, b, c, d], _, hds => exact unicodeEscape?_of_unit hds (by omega) rest

/-- An escape of two characters is read as what it stands for. -/
theorem stringFrom_unescape {e c : Char} (h : unescape? e = some c) (fuel : ℕ)
    (rest : List Char) :
    stringFrom (fuel + 1) ('\\' :: e :: rest) =
      (stringFrom fuel rest).map fun p => (c :: p.1, p.2) := by
  have hu : e ≠ 'u' := by rintro rfl; cases h
  rw [stringFrom, h]
  · cases stringFrom fuel rest <;> rfl
  · simpa using hu

/-- A character that needs no escape is read as itself. -/
theorem stringFrom_plain {c : Char} (hquote : c ≠ '"') (hslash : c ≠ '\\') (hsize : 0x20 ≤ c.toNat)
    (fuel : ℕ) (rest : List Char) :
    stringFrom (fuel + 1) (c :: rest) = (stringFrom fuel rest).map fun p => (c :: p.1, p.2) := by
  rw [stringFrom, if_neg (by simp [hslash, hsize])]
  · cases stringFrom fuel rest <;> rfl
  · simpa using hquote
  · simp [hslash]
  · simp [hslash]

/-- A character is read as it was written. -/
theorem stringFrom_escaped (c : Char) (fuel : ℕ) (rest : List Char) :
    stringFrom (fuel + 1) (escaped c ++ rest) =
      (stringFrom fuel rest).map fun p => (c :: p.1, p.2) := by
  unfold escaped
  split_ifs with h₁ h₂ h₃ h₄ h₅ h₆ h₇ h₈
  · rw [eq_of_beq h₁]; exact stringFrom_unescape rfl fuel rest
  · rw [eq_of_beq h₂]; exact stringFrom_unescape rfl fuel rest
  · rw [eq_of_beq h₃]; exact stringFrom_unescape rfl fuel rest
  · rw [eq_of_beq h₄]; exact stringFrom_unescape rfl fuel rest
  · rw [eq_of_beq h₅]; exact stringFrom_unescape rfl fuel rest
  · rw [eq_of_beq h₆]; exact stringFrom_unescape rfl fuel rest
  · rw [eq_of_beq h₇]; exact stringFrom_unescape rfl fuel rest
  · rw [List.cons_append, List.cons_append, stringFrom, unicodeEscape?_hexDigits h₈]
    simp only [Option.bind_eq_bind, Option.bind_some, Char.ofNat_toNat]
    cases stringFrom fuel rest <;> rfl
  · simp only [beq_iff_eq] at h₁ h₂
    exact stringFrom_plain h₁ h₂ (Nat.le_of_not_lt h₈) fuel rest

/-- A string is read up to its closing quotation mark, however it is escaped. -/
theorem stringFrom_text {cs : List Char} {fuel : ℕ} (h : cs.length < fuel) (rest : List Char) :
    stringFrom fuel (cs.flatMap escaped ++ '"' :: rest) = some (cs, rest) := by
  induction cs generalizing fuel with
  | nil =>
      obtain ⟨fuel, rfl⟩ := Nat.exists_eq_add_of_lt h
      rfl
  | cons c cs ih =>
      obtain ⟨fuel, rfl⟩ : ∃ k, fuel = k + 1 := ⟨fuel - 1, by simp at h; omega⟩
      rw [List.flatMap_cons, List.append_assoc, stringFrom_escaped, ih (by simpa using h)]
      rfl

theorem escaped_ne_nil (c : Char) : escaped c ≠ [] := by
  unfold escaped
  split_ifs <;> simp

theorem length_le_flatMap_escaped (cs : List Char) : cs.length ≤ (cs.flatMap escaped).length := by
  induction cs with
  | nil => rfl
  | cons c cs ih =>
      have := List.length_pos_iff.mpr (escaped_ne_nil c)
      rw [List.flatMap_cons, List.length_append, List.length_cons]
      omega

theorem string?_text (s : String) (rest : List Char) :
    string? (s.toList.flatMap escaped ++ '"' :: rest) = some (s, rest) := by
  have := length_le_flatMap_escaped s.toList
  rw [string?, stringFrom_text (by rw [List.length_append]; omega)]
  simp

/-! ### Words and numbers -/

/-- A word is not read where another character begins. -/
theorem word?_eq_none {w : String} {c d : Char} {ws : List Char} (hw : w.toList = c :: ws)
    (h : c ≠ d) (cs : List Char) : word? w (d :: cs) = none := by
  simp [word?, hw, h]

theorem Closes.head_not_digit {rest : List Char} (h : Closes rest) :
    ∀ c ∈ rest.head?, Text.isPlainDigit c = false := by
  intro c hc
  rcases h c hc with rfl | rfl | rfl <;> rfl

theorem places_of_closes {rest : List Char} (h : Closes rest) : places rest = ([], rest) := by
  cases rest with
  | nil => rfl
  | cons c cs => rcases h c rfl with rfl | rfl | rfl <;> rfl

theorem power_of_closes {rest : List Char} (h : Closes rest) : power rest = ([], rest) := by
  cases rest with
  | nil => rfl
  | cons c cs => rcases h c rfl with rfl | rfl | rfl <;> rfl

/-- The whole part of a number ends where no digit follows. -/
theorem wholePart?_append {ws rest : List Char} (hws : Decimal.IsWhole ws)
    (hrest : ∀ c ∈ rest.head?, Text.isPlainDigit c = false) :
    wholePart? (ws ++ rest) = some (ws, rest) := by
  cases hws with
  | zero => rfl
  | @digits d ds hd hds =>
      rw [wholePart?]
      · simp only [takeWhile_isPlainDigit hds hrest, dropWhile_isPlainDigit hds hrest]
        rfl
      · rintro cs hcs
        exact hd (List.cons.inj hcs).1

/-- The places of a number are read as they were written. -/
theorem places_append {fs rest : List Char} (hfs : Decimal.IsFraction fs)
    (hrest : ∀ c ∈ rest.head?, Text.isPlainDigit c = false ∧ c ≠ '.') :
    places (fs ++ rest) = (fs, rest) := by
  cases hfs with
  | none =>
      rw [List.nil_append, places.eq_def]
      split
      · exact absurd rfl (hrest '.' rfl).2
      · rfl
  | @places ps hne hps =>
      have hstop : ∀ c ∈ rest.head?, Text.isPlainDigit c = false := fun c hc => (hrest c hc).1
      simp [places, takeWhile_isPlainDigit hps hstop, dropWhile_isPlainDigit hps hstop, hne]

theorem power_append {es rest : List Char} (hes : Decimal.IsPower es) (h : Closes rest) :
    power (es ++ rest) = (es, rest) := by
  cases hes with
  | none => exact power_of_closes h
  | @signed sign ds hsign hne hds =>
      rcases hsign with rfl | rfl <;>
        simp [power, takeWhile_isPlainDigit hds h.head_not_digit,
          dropWhile_isPlainDigit hds h.head_not_digit, hne]

/-- A whole number within the limit of digits is read back. -/
theorem number?_digitsOf {n : ℕ} (hn : (Decimal.digitsOf n).length ≤ Decimal.digitLimit)
    (negative : Bool) {rest : List Char} (h : Closes rest) :
    number? negative (Decimal.digitsOf n ++ rest) =
      some (.int (if negative then -(n : ℤ) else n), rest) := by
  simp [number?, wholePart?_append (Decimal.isWhole_digitsOf n) h.head_not_digit,
    places_of_closes h, power_of_closes h, Nat.not_lt.mpr hn]

/-- What stands behind a fraction ends it: a power of ten, or what closes the number. -/
theorem head_after_fraction {es rest : List Char} (hes : Decimal.IsPower es) (h : Closes rest) :
    ∀ c ∈ (es ++ rest).head?, Text.isPlainDigit c = false ∧ c ≠ '.' := by
  cases hes with
  | none =>
      intro c hc
      rcases h c hc with rfl | rfl | rfl <;> exact ⟨rfl, by decide⟩
  | signed =>
      rintro _ ⟨⟩
      exact ⟨rfl, by decide⟩

theorem head_after_whole {fs rest : List Char} (hfs : Decimal.IsFraction fs)
    (h : ∀ c ∈ rest.head?, Text.isPlainDigit c = false ∧ c ≠ '.') :
    ∀ c ∈ (fs ++ rest).head?, Text.isPlainDigit c = false := by
  cases hfs with
  | none => exact fun c hc => (h c hc).1
  | places =>
      rintro _ ⟨⟩
      rfl

/-- A literal is read off the front of a text with the value that it has. -/
theorem number?_literal {ws fs es rest : List Char} {d : Decimal}
    (hliteral : Decimal.IsLiteralOf ws fs es d) (h : Closes rest) (negative : Bool) :
    ∃ d' : Decimal, d'.toRat = d.toRat ∧ number? negative (ws ++ (fs ++ (es ++ rest))) =
      some (.float (Decimal.nearest negative d'), rest) := by
  obtain ⟨hws, hfs, hes, hmarked, d', hd', hvalue⟩ := hliteral
  have hpower := head_after_fraction hes h
  have hplain : fs = [] → ¬ es = [] := fun hf he => hmarked.elim (absurd hf) (absurd he)
  refine ⟨d', hvalue, ?_⟩
  simpa [number?, wholePart?_append hws (head_after_whole hfs hpower), places_append hfs hpower,
    power_append hes h, List.append_assoc, hd'] using hplain

/-- Digits are no word. -/
theorem scalar?_digits {ds : List Char} (rest : List Char) (hds : ds ≠ [])
    (h : ∀ c ∈ ds, Text.isPlainDigit c = true) :
    scalar? (ds ++ rest) = number? false (ds ++ rest) ∧
      scalar? ('-' :: (ds ++ rest)) = number? true (ds ++ rest) := by
  obtain ⟨d, ds, rfl⟩ := List.exists_cons_of_ne_nil hds
  have hne {c : Char} (hc : Text.isPlainDigit c = false) : c ≠ d :=
    (ne_of_isPlainDigit (h d (by simp)) hc).symm
  have hinf : word? "-Infinity" ('-' :: d :: (ds ++ rest)) = none := by
    have : "-Infinity".toList = '-' :: 'I' :: "nfinity".toList := rfl
    simp [word?, this, hne (c := 'I') rfl]
  constructor
  · simp only [scalar?, List.cons_append,
      word?_eq_none (w := "null") rfl (hne (c := 'n') rfl),
      word?_eq_none (w := "true") rfl (hne (c := 't') rfl),
      word?_eq_none (w := "false") rfl (hne (c := 'f') rfl),
      word?_eq_none (w := "NaN") rfl (hne (c := 'N') rfl),
      word?_eq_none (w := "Infinity") rfl (hne (c := 'I') rfl),
      word?_eq_none (w := "-Infinity") rfl (hne (c := '-') rfl)]
    split
    · next hcons =>
        exact absurd (List.cons.inj hcons).1.symm (hne rfl)
    · rfl
  · simp only [scalar?, List.cons_append, hinf,
      word?_eq_none (w := "null") (d := '-') rfl (by decide),
      word?_eq_none (w := "true") (d := '-') rfl (by decide),
      word?_eq_none (w := "false") (d := '-') rfl (by decide),
      word?_eq_none (w := "NaN") (d := '-') rfl (by decide),
      word?_eq_none (w := "Infinity") (d := '-') rfl (by decide)]
    rfl

theorem scalar?_intDigits {i : ℤ} (hi : (Decimal.digitsOf i.natAbs).length ≤ Decimal.digitLimit)
    {rest : List Char} (h : Closes rest) :
    scalar? (Decimal.intDigits i ++ rest) = some (.int i, rest) := by
  obtain ⟨hplus, hminus⟩ := scalar?_digits rest (Decimal.digitsOf_ne_nil i.natAbs)
    fun _ => Decimal.isPlainDigit_of_mem_digitsOf
  unfold Decimal.intDigits
  split
  · rw [List.cons_append, hminus, number?_digitsOf hi true h, if_pos rfl]
    congr 3
    omega
  · rw [hplus, number?_digitsOf hi false h]
    simp only [Bool.false_eq_true, if_false]
    congr 3
    omega

/-- A number of binary64 is read off the front of a text. -/
theorem scalar?_floatText (x : Binary64) {rest : List Char} (h : Closes rest) :
    scalar? (floatText x ++ rest) = some (.float x, rest) := by
  obtain _ | negative | ⟨s, m, e, hc⟩ := x
  · rfl
  · cases negative <;> rfl
  · obtain ⟨ws, fs, es, d, htext, hliteral, hnearest⟩ := Decimal.exists_literal (s := s) hc
    obtain ⟨d', hvalue, hnumber⟩ := number?_literal hliteral h s
    obtain ⟨hplus, hminus⟩ := scalar?_digits (fs ++ (es ++ rest)) hliteral.whole.ne_nil
      hliteral.whole.isPlainDigit
    rw [hnearest d' hvalue] at hnumber
    rw [← hnumber, floatText, htext, String.toList_ofList]
    · cases s with
      | false => simpa [withSign] using hplus
      | true => simpa [withSign] using hminus
    · nofun
    · nofun

/-! ### Values -/

theorem isGap_of_isPlainDigit {c : Char} (h : Text.isPlainDigit c = true) : isGap c = false := by
  have hne (d : Char) (hd : Text.isPlainDigit d = false) := ne_of_isPlainDigit h hd
  simp [isGap, hne ' ' rfl, hne '\t' rfl, hne '\n' rfl, hne '\r' rfl]

/-- The text of an integer begins with a minus or a digit. -/
theorem exists_intDigits_cons (i : ℤ) : ∃ c cs, Decimal.intDigits i = c :: cs ∧
    (c = '-' ∨ Text.isPlainDigit c = true) := by
  unfold Decimal.intDigits
  split
  · exact ⟨_, _, rfl, .inl rfl⟩
  · obtain ⟨d, ds, hds, hd, -⟩ := Decimal.exists_digitsOf_cons i.natAbs
    exact ⟨d, ds, hds, .inr hd⟩

/-- The text of a number of binary64 begins with a minus, a digit or the letter of a name. -/
theorem exists_floatText_cons (x : Binary64) : ∃ c cs, floatText x = c :: cs ∧
    (c = '-' ∨ c = 'N' ∨ c = 'I' ∨ Text.isPlainDigit c = true) := by
  obtain _ | negative | ⟨s, m, e, hc⟩ := x
  · exact ⟨'N', _, rfl, .inr (.inl rfl)⟩
  · cases negative
    · exact ⟨'I', _, rfl, .inr (.inr (.inl rfl))⟩
    · exact ⟨'-', _, rfl, .inl rfl⟩
  · obtain ⟨ws, fs, es, d, htext, hliteral, -⟩ := Decimal.exists_literal (s := s) hc
    obtain ⟨c, cs, rfl⟩ := List.exists_cons_of_ne_nil hliteral.whole.ne_nil
    rw [floatText, htext, String.toList_ofList]
    · cases s
      · exact ⟨c, _, rfl, .inr (.inr (.inr (hliteral.whole.isPlainDigit c List.mem_cons_self)))⟩
      · exact ⟨'-', _, rfl, .inl rfl⟩
    · nofun
    · nofun

/-- No value begins with a blank or with what closes a list. -/
theorem exists_text_cons {v : Json} (h : ReadsBack v) :
    ∃ c cs, text v = c :: cs ∧ isGap c = false ∧ c ≠ ']' := by
  cases v with
  | null => exact ⟨'n', _, rfl, rfl, by decide⟩
  | bool b => cases b <;> exact ⟨_, _, rfl, rfl, by decide⟩
  | int i =>
      obtain ⟨c, cs, hcs, rfl | hc⟩ := exists_intDigits_cons i
      · exact ⟨_, cs, by rw [text, hcs], rfl, by decide⟩
      · refine ⟨c, cs, by rw [text, hcs], isGap_of_isPlainDigit hc, ?_⟩
        rintro rfl
        cases hc
  | string s => exact ⟨'"', _, rfl, rfl, by decide⟩
  | array items => exact ⟨'[', _, by rw [text]; rfl, rfl, by decide⟩
  | object fields => exact ⟨'\x7b', _, by rw [text]; rfl, rfl, by decide⟩
  | float x =>
      obtain ⟨c, cs, hcs, hc⟩ := exists_floatText_cons x
      refine ⟨c, cs, by rw [text, hcs], ?_⟩
      rcases hc with rfl | rfl | rfl | hc
      · exact ⟨rfl, by decide⟩
      · exact ⟨rfl, by decide⟩
      · exact ⟨rfl, by decide⟩
      · refine ⟨isGap_of_isPlainDigit hc, ?_⟩
        rintro rfl
        cases hc
  | foreign => rw [ReadsBack] at h; exact h.elim

theorem skipGap_cons {c : Char} (h : isGap c = false) (cs : List Char) :
    skipGap (c :: cs) = c :: cs := by
  simp [skipGap, h]

theorem skipGap_text {v : Json} (h : ReadsBack v) (rest : List Char) :
    skipGap (text v ++ rest) = text v ++ rest := by
  obtain ⟨c, cs, hcs, hc, -⟩ := exists_text_cons h
  rw [hcs, List.cons_append, skipGap_cons hc]

theorem skipGap_space (cs : List Char) : skipGap (' ' :: cs) = skipGap cs := rfl

/-- A value that begins like no string, list or object is one word or one number. -/
theorem valueFrom_scalar {c : Char} (hquote : c ≠ '"') (hbracket : c ≠ '[') (hbrace : c ≠ '\x7b')
    (fuel : ℕ) (cs : List Char) : valueFrom (fuel + 1) (c :: cs) = scalar? (c :: cs) := by
  rw [valueFrom]
  · rintro _ h; exact hquote (List.cons.inj h).1
  · rintro _ h; exact hbracket (List.cons.inj h).1
  · rintro _ h; exact hbrace (List.cons.inj h).1

theorem valueFrom_int {i : ℤ} (hi : (Decimal.digitsOf i.natAbs).length ≤ Decimal.digitLimit)
    {rest : List Char} (h : Closes rest) (fuel : ℕ) :
    valueFrom (fuel + 1) (Decimal.intDigits i ++ rest) = some (.int i, rest) := by
  rw [← scalar?_intDigits hi h]
  obtain ⟨c, cs, hcs, hc⟩ := exists_intDigits_cons i
  rw [hcs, List.cons_append]
  refine valueFrom_scalar ?_ ?_ ?_ fuel _ <;> rintro rfl <;> rcases hc with hc | hc <;> cases hc

theorem valueFrom_float (x : Binary64) {rest : List Char} (h : Closes rest) (fuel : ℕ) :
    valueFrom (fuel + 1) (floatText x ++ rest) = some (.float x, rest) := by
  rw [← scalar?_floatText x h]
  obtain ⟨c, cs, hcs, hc⟩ := exists_floatText_cons x
  rw [hcs, List.cons_append]
  refine valueFrom_scalar ?_ ?_ ?_ fuel _ <;> rintro rfl <;> rcases hc with hc | hc | hc | hc <;>
    cases hc

/-- A field of a new name comes behind the others. -/
theorem setField_of_not_mem {name : String} {value : Json} {before : List (String × Json)}
    (h : name ∉ before.map Prod.fst) :
    setField name value before = before ++ [(name, value)] := by
  induction before with
  | nil => rfl
  | cons f fs ih =>
      obtain ⟨n, v⟩ := f
      simp only [List.map_cons, List.mem_cons, not_or] at h
      simp [setField, Ne.symm h.1, ih h.2]

/-- The names of the fields to come differ from those set before, also when one more is set. -/
theorem not_mem_append_field {n : String} {v : Json} {fs before : List (String × Json)}
    (hn : n ∉ fs.map Prod.fst) (h : ∀ g ∈ (n, v) :: fs, g.1 ∉ before.map Prod.fst) :
    ∀ g ∈ fs, g.1 ∉ (before ++ [(n, v)]).map Prod.fst := by
  intro g hg hmem
  rw [List.map_append, List.mem_append] at hmem
  rcases hmem with hmem | hmem
  · exact h g (List.mem_cons_of_mem _ hg) hmem
  · rw [List.map_singleton, List.mem_singleton] at hmem
    exact hn (List.mem_map.mpr ⟨g, hg, hmem⟩)

theorem exists_itemsText_cons {v : Json} (h : ReadsBack v) (vs : List Json) :
    ∃ c cs, itemsText (v :: vs) = c :: cs ∧ isGap c = false ∧ c ≠ ']' := by
  obtain ⟨c, cs, hcs, hc⟩ := exists_text_cons h
  cases vs with
  | nil => exact ⟨c, cs, by rw [itemsText, hcs], hc⟩
  | cons w vs => exact ⟨c, _, by rw [itemsText, hcs]; rfl, hc⟩

theorem exists_fieldsText_cons (f : String × Json) (fs : List (String × Json)) :
    ∃ cs, fieldsText (f :: fs) = '"' :: cs := by
  cases fs <;> exact ⟨_, by rw [fieldsText, stringText]; rfl⟩

theorem stringText_append (s : String) (rest : List Char) :
    stringText s ++ rest = '"' :: (s.toList.flatMap escaped ++ '"' :: rest) := by
  simp [stringText]

theorem text_array_append (items : List Json) (rest : List Char) :
    text (.array items) ++ rest = '[' :: (itemsText items ++ ']' :: rest) := by
  simp [text]

theorem text_object_append (fields : List (String × Json)) (rest : List Char) :
    text (.object fields) ++ rest = '\x7b' :: (fieldsText fields ++ '\x7d' :: rest) := by
  simp [text]

/-- One field is set into those before, and what follows it decides how to go on. -/
theorem fieldsFrom_field {n : String} {v : Json} {fuel : ℕ} {rest : List Char} (hv : ReadsBack v)
    (hvalue : valueFrom fuel (text v ++ rest) = some (v, rest)) (before : List (String × Json)) :
    fieldsFrom (fuel + 1) before (stringText n ++ ':' :: ' ' :: (text v ++ rest)) =
      match skipGap rest with
      | '\x7d' :: rest => some (setField n v before, rest)
      | ',' :: rest    => fieldsFrom fuel (setField n v before) (skipGap rest)
      | _              => none := by
  rw [stringText_append, fieldsFrom, string?_text]
  simp only [skipGap_cons (c := ':') rfl, skipGap_space, skipGap_text hv, hvalue,
    Option.bind_eq_bind, Option.bind_some]
  rfl

mutual

/-- A value is read off the front of a text. -/
theorem valueFrom_text : ∀ (v : Json) (fuel : ℕ) (rest : List Char), ReadsBack v → Closes rest →
    2 * (text v).length ≤ fuel + 1 → valueFrom fuel (text v ++ rest) = some (v, rest)
  | v, 0, rest, hv, _, hfuel => by
      obtain ⟨c, cs, hcs, -⟩ := exists_text_cons hv
      rw [hcs, List.length_cons] at hfuel
      omega
  | .null, fuel + 1, rest, _, _, _ => by rw [text]; rfl
  | .bool b, fuel + 1, rest, _, _, _ => by rw [text]; cases b <;> rfl
  | .int i, fuel + 1, rest, hi, hrest, _ => by
      rw [ReadsBack] at hi
      rw [text, valueFrom_int hi hrest]
  | .string s, fuel + 1, rest, _, _, _ => by
      rw [text, stringText_append, valueFrom, string?_text]
      rfl
  | .array [], fuel + 1, rest, _, _, _ => by rw [text, itemsText]; rfl
  | .array (v :: vs), fuel + 1, rest, hv, _, hfuel => by
      rw [ReadsBack] at hv
      rw [text, List.length_append, List.length_cons, List.length_singleton] at hfuel
      have hitems := itemsFrom_text v vs fuel rest hv (by omega)
      obtain ⟨c, cs, hcs, hgap, hclose⟩ := exists_itemsText_cons hv.1 vs
      rw [text_array_append, valueFrom]
      rw [hcs, List.cons_append] at hitems ⊢
      rw [skipGap_cons hgap]
      simp [hclose, hitems]
  | .object [], fuel + 1, rest, _, _, _ => by rw [text, fieldsText]; rfl
  | .object (f :: fs), fuel + 1, rest, hf, _, hfuel => by
      rw [ReadsBack] at hf
      rw [text, List.length_append, List.length_cons, List.length_singleton] at hfuel
      have hfields := fieldsFrom_text f fs fuel [] rest hf (by simp) (by omega)
      obtain ⟨cs, hcs⟩ := exists_fieldsText_cons f fs
      rw [text_object_append, valueFrom]
      rw [hcs, List.cons_append] at hfields ⊢
      rw [skipGap_cons rfl]
      simp [hfields]
  | .float x, fuel + 1, rest, _, hrest, _ => by rw [text, valueFrom_float x hrest]
  | .foreign, fuel + 1, rest, hx, _, _ => by rw [ReadsBack] at hx; exact hx.elim

/-- The items of an array come back, given that each of them does; fuel enough for twice the text is
always there. -/
theorem itemsFrom_text : ∀ (v : Json) (vs : List Json) (fuel : ℕ) (rest : List Char),
    ItemsReadBack (v :: vs) → 2 * (itemsText (v :: vs)).length ≤ fuel →
    itemsFrom fuel (itemsText (v :: vs) ++ ']' :: rest) = some (v :: vs, rest)
  | v, vs, 0, rest, hv, hfuel => by
      obtain ⟨c, cs, hcs, -⟩ := exists_itemsText_cons hv.1 vs
      rw [hcs, List.length_cons] at hfuel
      omega
  | v, [], fuel + 1, rest, hv, hfuel => by
      rw [itemsText] at hfuel ⊢
      rw [itemsFrom, valueFrom_text v fuel _ hv.1 (closes_bracket rest) (by omega)]
      rfl
  | v, w :: vs, fuel + 1, rest, hv, hfuel => by
      rw [itemsText] at hfuel ⊢
      simp only [List.length_append, List.length_cons] at hfuel
      have hvalue := valueFrom_text v fuel (',' :: ' ' :: (itemsText (w :: vs) ++ ']' :: rest))
        hv.1 (closes_comma _) (by omega)
      have hitems := itemsFrom_text w vs fuel rest hv.2 (by omega)
      obtain ⟨c, cs, hcs, hgap, -⟩ := exists_itemsText_cons hv.2.1 vs
      rw [List.append_assoc, List.cons_append, List.cons_append, itemsFrom, hvalue]
      rw [hcs, List.cons_append] at hitems ⊢
      simp [skipGap_cons (c := ',') rfl, skipGap_space, skipGap_cons hgap, hitems]

/-- So do the fields of an object, whose names are all different. -/
theorem fieldsFrom_text : ∀ (f : String × Json) (fs : List (String × Json)) (fuel : ℕ)
    (before : List (String × Json)) (rest : List Char),
    FieldsReadBack (f :: fs) → (∀ g ∈ f :: fs, g.1 ∉ before.map Prod.fst) →
    2 * (fieldsText (f :: fs)).length ≤ fuel →
    fieldsFrom fuel before (fieldsText (f :: fs) ++ '\x7d' :: rest) =
      some (before ++ f :: fs, rest)
  | f, fs, 0, before, rest, hf, _, hfuel => by
      obtain ⟨cs, hcs⟩ := exists_fieldsText_cons f fs
      rw [hcs, List.length_cons] at hfuel
      omega
  | (n, v), [], fuel + 1, before, rest, hf, hbefore, hfuel => by
      rw [fieldsText] at hfuel ⊢
      simp only [List.length_append, List.length_cons] at hfuel
      have hvalue := valueFrom_text v fuel ('\x7d' :: rest) hf.2.1 (closes_brace rest) (by omega)
      rw [List.append_assoc, List.cons_append, List.cons_append, fieldsFrom_field hf.2.1 hvalue,
        skipGap_cons rfl, setField_of_not_mem (hbefore (n, v) (by simp))]
      rfl
  | (n, v), g :: fs, fuel + 1, before, rest, hf, hbefore, hfuel => by
      rw [fieldsText] at hfuel ⊢
      simp only [List.length_append, List.length_cons] at hfuel
      have hvalue := valueFrom_text v fuel
        (',' :: ' ' :: (fieldsText (g :: fs) ++ '\x7d' :: rest)) hf.2.1 (closes_comma _) (by omega)
      have hfields := fieldsFrom_text g fs fuel (before ++ [(n, v)]) rest hf.2.2
        (not_mem_append_field hf.1 hbefore) (by omega)
      obtain ⟨cs, hcs⟩ := exists_fieldsText_cons g fs
      simp only [List.append_assoc, List.cons_append]
      rw [fieldsFrom_field hf.2.1 hvalue, skipGap_cons rfl,
        setField_of_not_mem (hbefore (n, v) (by simp))]
      show fieldsFrom fuel (before ++ [(n, v)]) (skipGap (' ' :: _)) = _
      rw [hcs, List.cons_append] at hfields ⊢
      rw [skipGap_space, skipGap_cons rfl, hfields]
      simp

end

/-- A document comes back from its text. -/
theorem parse?_text {doc : Json} (h : ReadsBack doc) :
    parse? (String.ofList (text doc)) = some doc := by
  have hgap : skipGap (text doc) = text doc := by simpa using skipGap_text h []
  have hvalue := valueFrom_text doc (2 * (text doc).length + 1) [] h closes_nil (by omega)
  rw [List.append_nil] at hvalue
  rw [parse?]
  simp only [String.toList_ofList, hgap, hvalue]
  rfl

/-! ### Line ends -/

theorem forall_mem_escaped (c : Char) : ∀ d ∈ escaped c, 0x20 ≤ d.toNat := by
  have hdigits : ∀ n < 0x20,
      (Text.hexDigits 4 n).all (fun d => decide (0x20 ≤ d.toNat)) = true := by decide
  unfold escaped
  split_ifs with h₁ h₂ h₃ h₄ h₅ h₆ h₇ h₈
  · simp
  · simp
  · simp
  · simp
  · simp
  · simp
  · simp
  · intro d hd
    rcases List.mem_cons.mp hd with rfl | hd
    · decide
    rcases List.mem_cons.mp hd with rfl | hd
    · decide
    exact of_decide_eq_true (List.all_eq_true.mp (hdigits _ h₈) d hd)
  · simpa using h₈

theorem forall_mem_stringText (s : String) : ∀ d ∈ stringText s, 0x20 ≤ d.toNat := by
  intro d hd
  simp only [stringText, List.cons_append, List.mem_cons, List.mem_append, List.mem_flatMap,
    List.not_mem_nil, or_false] at hd
  rcases hd with rfl | ⟨c, -, hd⟩ | rfl
  · decide
  · exact forall_mem_escaped c d hd
  · decide

theorem le_toNat_of_isPlainDigit {d : Char} (h : Text.isPlainDigit d = true) : 0x20 ≤ d.toNat := by
  simp only [Text.isPlainDigit, Bool.and_eq_true, decide_eq_true_eq, Char.le_def,
    UInt32.le_iff_toNat_le] at h
  exact le_trans (by decide) h.1

theorem forall_mem_intDigits (i : ℤ) : ∀ d ∈ Decimal.intDigits i, 0x20 ≤ d.toNat := by
  have hdigit {d : Char} (hd : d ∈ Decimal.digitsOf i.natAbs) : 0x20 ≤ d.toNat :=
    le_toNat_of_isPlainDigit (Decimal.isPlainDigit_of_mem_digitsOf hd)
  unfold Decimal.intDigits
  split
  · intro d hd
    rcases List.mem_cons.mp hd with rfl | hd
    · decide
    · exact hdigit hd
  · exact fun d hd => hdigit hd

/-- The characters of a number are digits, points, signs and letters. -/
theorem forall_mem_floatText (x : Binary64) : ∀ d ∈ floatText x, 0x20 ≤ d.toNat := by
  obtain _ | negative | ⟨s, m, e, hc⟩ := x
  · simp [floatText]
  · cases negative <;> simp [floatText, withSign]
  · obtain ⟨ws, fs, es, d, htext, hliteral, -⟩ := Decimal.exists_literal (s := s) hc
    rw [floatText, htext, String.toList_ofList]
    · have hws : ∀ d ∈ ws, 0x20 ≤ d.toNat := fun d hd =>
        le_toNat_of_isPlainDigit (hliteral.whole.isPlainDigit d hd)
      have hfs : ∀ d ∈ fs, 0x20 ≤ d.toNat := by
        intro d hd
        rcases hliteral.fraction.isNumeric d hd with hd | rfl
        · exact le_toNat_of_isPlainDigit hd
        · decide
      have hes : ∀ d ∈ es, 0x20 ≤ d.toNat := by
        cases hliteral.power with
        | none => nofun
        | signed hsign _ hds =>
            refine List.forall_mem_cons.mpr ⟨by decide, List.forall_mem_cons.mpr ⟨?_, fun d hd =>
              le_toNat_of_isPlainDigit (hds d hd)⟩⟩
            rcases hsign with rfl | rfl <;> decide
      have hall : ∀ d ∈ ws ++ (fs ++ es), 0x20 ≤ d.toNat :=
        List.forall_mem_append.mpr ⟨hws, List.forall_mem_append.mpr ⟨hfs, hes⟩⟩
      cases s
      · exact hall
      · exact List.forall_mem_cons.mpr ⟨by decide, hall⟩
    · nofun
    · nofun

mutual

/-- A document is written on one line. -/
theorem forall_mem_text : ∀ v : Json, ReadsBack v → ∀ d ∈ text v, 0x20 ≤ d.toNat
  | .null, _ => by simp [text]
  | .bool b, _ => by cases b <;> simp [text]
  | .int i, _ => by rw [text]; exact forall_mem_intDigits i
  | .string s, _ => by rw [text]; exact forall_mem_stringText s
  | .array items, h => by
      rw [ReadsBack] at h
      have := forall_mem_itemsText items h
      rw [text]
      simp only [List.cons_append, List.forall_mem_cons, List.forall_mem_append]
      exact ⟨by decide, this, by decide, nofun⟩
  | .object fields, h => by
      rw [ReadsBack] at h
      have := forall_mem_fieldsText fields h
      rw [text]
      simp only [List.cons_append, List.forall_mem_cons, List.forall_mem_append]
      exact ⟨by decide, this, by decide, nofun⟩
  | .float x, _ => by rw [text]; exact forall_mem_floatText x
  | .foreign, h => by rw [ReadsBack] at h; exact h.elim

theorem forall_mem_itemsText : ∀ vs : List Json, ItemsReadBack vs →
    ∀ d ∈ itemsText vs, 0x20 ≤ d.toNat
  | [], _ => by rw [itemsText]; nofun
  | [v], h => by rw [itemsText]; exact forall_mem_text v h.1
  | v :: w :: vs, h => by
      have hvalue := forall_mem_text v h.1
      have hitems := forall_mem_itemsText (w :: vs) h.2
      rw [itemsText]
      simp only [List.forall_mem_cons, List.forall_mem_append]
      exact ⟨hvalue, by decide, by decide, hitems⟩

theorem forall_mem_fieldsText : ∀ fs : List (String × Json), FieldsReadBack fs →
    ∀ d ∈ fieldsText fs, 0x20 ≤ d.toNat
  | [], _ => by rw [fieldsText]; nofun
  | [(n, v)], h => by
      have hvalue := forall_mem_text v h.2.1
      rw [fieldsText]
      simp only [List.forall_mem_cons, List.forall_mem_append]
      exact ⟨forall_mem_stringText n, by decide, by decide, hvalue⟩
  | (n, v) :: f :: fs, h => by
      have hvalue := forall_mem_text v h.2.1
      have hfields := forall_mem_fieldsText (f :: fs) h.2.2
      rw [fieldsText]
      simp only [List.forall_mem_cons, List.forall_mem_append]
      exact ⟨⟨forall_mem_stringText n, by decide, by decide, hvalue⟩, by decide, by decide, hfields⟩

end

/-- A document has no line ends, so nothing happens to it on its way through a file. -/
theorem unifyNewlines_text {doc : Json} (h : ReadsBack doc) :
    Text.unifyNewlines (text doc) = text doc :=
  Text.unifyNewlines_of_not_mem fun hmem => absurd (forall_mem_text doc h _ hmem) (by decide)

end Abacus.Json
