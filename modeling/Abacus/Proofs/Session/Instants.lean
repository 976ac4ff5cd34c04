import Abacus.Proofs.Clock.Milliseconds
import Abacus.Proofs.Decimal.Literal
import Abacus.Proofs.Session.Restarts

/-!
# Abacus — Session — Identifier and timestamp

An entry has two names for the moment it was made at: its identifier, which comes from the moment's
seconds by way of binary64 numbers, and its timestamp, which is cut to the millisecond exactly.
They name the same millisecond unless a rounding has carried the identifier over to the one before
or after (`identifier_names_instant_iff`).
-/

namespace Abacus

namespace Calendar

/-- A number that is not negative reads as it is behind zeros. -/
theorem ofDigits_padded (width n : ℕ) : Decimal.ofDigits (padded width n).toList = n := by
  have hdigits : Decimal.intDigits n = Decimal.digitsOf n := by
    rw [Decimal.intDigits, if_neg (by omega), Int.natAbs_natCast]
  rw [padded, hdigits, String.toList_ofList, Decimal.ofDigits_zeros_append,
    Decimal.ofDigits_digitsOf]

theorem length_padded {width n : ℕ} (hwidth : 0 < width) (hn : n < 10 ^ width) :
    (padded width n).toList.length = width := by
  have hdigits : Decimal.intDigits n = Decimal.digitsOf n := by
    rw [Decimal.intDigits, if_neg (by omega), Int.natAbs_natCast]
  have hlength := (Decimal.length_digitsOf_le_iff hwidth).mpr hn
  rw [padded, hdigits, String.toList_ofList, List.length_append, List.length_replicate]
  omega

/-- A timestamp ends on the milliseconds within its second. -/
theorem exists_textOfMillis (ms : ℤ) :
    ∃ front, textOfMillis ms = front ++ padded 3 (ms % 1000).toNat ++ "Z" := by
  have hrest : ((ms % 1000).toNat : ℤ) = (ms - ms.fdiv 86400000 * 86400000) % 1000 := by omega
  rw [hrest]
  exact ⟨_, rfl⟩

/-- Timestamps that are alike show the same milliseconds. -/
theorem emod_eq_of_textOfMillis {a b : ℤ} (h : textOfMillis a = textOfMillis b) :
    a % 1000 = b % 1000 := by
  obtain ⟨front, ha⟩ := exists_textOfMillis a
  obtain ⟨front', hb⟩ := exists_textOfMillis b
  have hlength : (padded 3 (a % 1000).toNat).toList.length =
      (padded 3 (b % 1000).toNat).toList.length := by
    rw [length_padded (by decide) (by omega), length_padded (by decide) (by omega)]
  have htext := congrArg String.toList (ha.symm.trans (h.trans hb))
  simp only [String.toList_append, List.append_cancel_right_eq] at htext
  have hdigits := congrArg Decimal.ofDigits (List.append_inj_right' htext hlength)
  rw [ofDigits_padded, ofDigits_padded] at hdigits
  omega

end Calendar

/-- The identifier names the millisecond that the timestamp shows. -/
def Entry.NamesItsInstant (e : Entry) : Prop :=
  e.timestamp = Calendar.textOfMillis e.number

instance (e : Entry) : Decidable e.NamesItsInstant :=
  inferInstanceAs (Decidable (_ = _))

theorem Entry.timestamp_stamped (id us : ℕ) (expression result : String) :
    (stamped id us expression result).timestamp = Calendar.textOfMillis (us / 1000 : ℕ) := by
  rw [stamped, Calendar.timestamp, Calendar.millis, Int.fdiv_eq_ediv_of_nonneg _ (by decide),
    Int.natCast_div]
  rfl

/-- Of neighbouring milliseconds an entry names its own only. -/
theorem Entry.namesItsInstant_stamped_iff {id us : ℕ} (expression result : String)
    (habove : id ≤ us / 1000 + 1) (hbelow : us / 1000 ≤ id + 1) :
    (stamped id us expression result).NamesItsInstant ↔ id = us / 1000 := by
  rw [NamesItsInstant, timestamp_stamped, number_stamped]
  constructor
  · intro h
    have := Calendar.emod_eq_of_textOfMillis h
    omega
  · rintro rfl
    rfl

/-- The identifier after one that is below the moment's milliseconds. -/
theorem Identifier.next_of_lt {last us : ℕ} (hlast : last < us / 1000)
    (hrange : us < Calendar.horizon) :
    next last us = if Overshoots us then us / 1000 + 1
      else if FallsShort us then max (us / 1000 - 1) (last + 1) else us / 1000 := by
  have hmillis := millis_eq (by omega : 1000 ≤ us) hrange
  have hnext : next last us = max (millis us).toNat (last + 1) := rfl
  rw [hnext, hmillis]
  split_ifs <;> omega

/-- **When the identifier and the timestamp of an entry name the same instant.**  Let the clock show
a moment, before the year 10000, whose milliseconds are greater than the last identifier given out.
The entry shows these milliseconds in its timestamp.  Its identifier is one away from them at most,
and it names them exactly when the roundings on the way to it neither overshoot nor, unless the
identifier before is next to them, fall short.  They do neither in the seconds from 1.024 times a
power of two to the next power of two, such as those from November 2004 to January 2038, up to the
year 2242. -/
theorem identifier_names_instant_iff (d : Desk) {us : ℕ} (expression result : String)
    (hnow : d.clock.now = us) (hrange : us < Calendar.horizon) (hlast : d.lastId < us / 1000) :
    ∃ id after, Desk.stamp.runAt d = ((id, (us : ℤ)), after) ∧
      let e := Entry.stamped id us expression result
      e.number = id ∧ e.timestamp = Calendar.textOfMillis (us / 1000 : ℕ) ∧
      id ≤ us / 1000 + 1 ∧ us / 1000 ≤ id + 1 ∧ (e.NamesItsInstant ↔ id = us / 1000) ∧
      (id = us / 1000 ↔ ¬ Identifier.Overshoots us ∧
        (Identifier.FallsShort us → d.lastId + 1 = us / 1000)) ∧
      ∀ k < 33, 1024000 * 2 ^ k ≤ us → us < 1000000 * 2 ^ (k + 1) → id = us / 1000 := by
  have hid := Identifier.next_of_lt hlast hrange
  have habove : Identifier.next d.lastId us ≤ us / 1000 + 1 := by
    rw [hid]
    split_ifs <;> omega
  have hbelow : us / 1000 ≤ Identifier.next d.lastId us + 1 := by
    rw [hid]
    split_ifs <;> omega
  refine ⟨_, _, by rw [Desk.runAt_stamp, hnow], Entry.number_stamped .., Entry.timestamp_stamped ..,
    habove, hbelow, Entry.namesItsInstant_stamped_iff _ _ habove hbelow, ?_, ?_⟩
  · rw [hid]
    split_ifs with hover hshort
    · exact iff_of_false (by omega) fun h => h.1 hover
    · constructor
      · exact fun h => ⟨hover, fun _ => by omega⟩
      · rintro ⟨-, hnext⟩
        have := hnext hshort
        omega
    · exact iff_of_true rfl ⟨hover, fun h => absurd h hshort⟩
  · intro k hk hlow hhigh
    have hmillis := Identifier.millis_of_octave hk hlow hhigh
    have hnext : Identifier.next d.lastId us =
        max (Identifier.millis us).toNat (d.lastId + 1) := rfl
    omega

/-- A moment of November 2023. -/
theorem identifier_names_instant_at_present :
    let d : Desk := { clock := ⟨1700000000123456, 0, 0⟩, lastId := 1699999999999 }
    ∃ after, Desk.stamp.runAt d = ((1700000000123, 1700000000123456), after) ∧
      d.lastId < 1700000000123 ∧ 1700000000123456 < Calendar.horizon ∧
      (Entry.stamped 1700000000123 1700000000123456 "1+1" "2").timestamp =
        "2023-11-14T22:13:20.123Z" ∧
      (Entry.stamped 1700000000123 1700000000123456 "1+1" "2").NamesItsInstant := by
  intro d
  have hnow : d.clock.now = (1700000000123456 : ℕ) := rfl
  obtain ⟨id, after, hstamp, -, -, -, -, hnames, -, hoctave⟩ :=
    identifier_names_instant_iff d "1+1" "2" hnow (by decide) (by decide)
  have hid : id = 1700000000123 := hoctave 30 (by decide) (by decide) (by decide)
  subst hid
  exact ⟨after, hstamp, by decide, by decide, by decide +kernel, hnames.mpr rfl⟩

/-- One second and one millisecond after the epoch the identifier is `1000`, since the seconds are
rounded down to less than `1.001`. -/
theorem identifier_falls_short_of_instant :
    let d : Desk := { clock := ⟨1001000, 0, 0⟩ }
    ∃ after, Desk.stamp.runAt d = ((1000, 1001000), after) ∧ d.lastId < 1001000 / 1000 ∧
      Entry.stamped 1000 1001000 "1" "1" = ⟨"1000", "1", "1", "1970-01-01T00:00:01.001Z"⟩ ∧
      ¬ (Entry.stamped 1000 1001000 "1" "1").NamesItsInstant := by
  exact ⟨_, rfl, by decide, by decide +kernel, by decide +kernel⟩

end Abacus
