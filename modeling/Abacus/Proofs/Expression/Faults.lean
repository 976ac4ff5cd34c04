import Abacus.Proofs.Decimal.Shortest
import Abacus.Proofs.Expression.Lexeme

/-!
# Abacus — Expression — What is wrong with a text

A text has tokens exactly when each of its characters is one of the grammar and each of its longest
runs of digits and points writes a number in range.  Otherwise the first fault from the left is
reported (`scan_faults`).  Nothing of this depends on which signs belong to numbers: a sign is
itself a character of the grammar, and the run behind it is judged without it.

* `HasRun`: where the longest runs of a text are; `hasRun_cons` and `hasRun_append` say how they
  follow the scanner.
* `scanFrom_settled`: the scanner settles every rest of a text, by one lemma for each of its steps.
-/

namespace Abacus

/-! ### Characters and runs -/

/-- A character that the grammar has a use for. -/
def Token.IsLegal (table : OperatorTable) (c : Char) : Prop :=
  isNumeric c = true ∨ c = '(' ∨ c = ')' ∨ c ∈ table.symbols

/-- An operator's symbol is legal. -/
theorem Token.isLegal_of_find? {table : OperatorTable} {c : Char} {op : Operator}
    (h : table.find? c = some op) : IsLegal table c :=
  .inr (.inr (.inr (OperatorTable.exists_find?_iff.mp ⟨op, h⟩)))

/-- The run writes a number that binary64 has, rounded, as a finite one. -/
def WithinRange (run : List Char) : Prop :=
  ∃ d, Decimal.fixed? run = some d ∧ d.toRat < Binary64.overflowFrom

/-- The longest run of digits and points behind the first `i` characters of a text. -/
def HasRun (cs : List Char) (i : ℕ) (run : List Char) : Prop :=
  ∃ front back, cs = front ++ (run ++ back) ∧ front.length = i ∧ run ≠ [] ∧
    (∀ c ∈ run, Token.isNumeric c = true) ∧ (∀ c ∈ front.getLast?, Token.isNumeric c = false) ∧
    Token.startsNumeric back = false

/-- Two runs that begin together are one. -/
theorem append_run_inj {r r' rest rest' : List Char} (hd : ∀ c ∈ r, Token.isNumeric c = true)
    (hd' : ∀ c ∈ r', Token.isNumeric c = true) (hr : Token.startsNumeric rest = false)
    (hr' : Token.startsNumeric rest' = false) (h : r ++ rest = r' ++ rest') :
    r = r' ∧ rest = rest' := by
  obtain ⟨htake, hdrop⟩ := Token.takeWhile_run hd hr
  obtain ⟨htake', hdrop'⟩ := Token.takeWhile_run hd' hr'
  rw [h] at htake hdrop
  exact ⟨htake.symm.trans htake', hdrop.symm.trans hdrop'⟩

section Runs
variable {c : Char} {cs r rest run : List Char} {i : ℕ}

/-- No run takes in a character that is neither a digit nor a point. -/
theorem hasRun_cons (hc : Token.isNumeric c = false) :
    HasRun (c :: cs) i run ↔ ∃ j, i = j + 1 ∧ HasRun cs j run := by
  constructor
  · rintro ⟨front, back, htext, hi, hne, hd, hfront, hback⟩
    cases front with
    | nil =>
        obtain ⟨x, xs, rfl⟩ := List.exists_cons_of_ne_nil hne
        obtain ⟨rfl, -⟩ := List.cons.inj htext
        rw [hd c List.mem_cons_self] at hc
        cases hc
    | cons x front =>
        obtain ⟨rfl, rfl⟩ := List.cons.inj htext
        refine ⟨front.length, hi.symm, front, back, rfl, rfl, hne, hd, fun y hy => ?_, hback⟩
        exact hfront y (by rw [List.getLast?_cons_of_ne_nil (by rintro rfl; cases hy)]; exact hy)
  · rintro ⟨j, rfl, front, back, rfl, rfl, hne, hd, hfront, hback⟩
    refine ⟨c :: front, back, rfl, rfl, hne, hd, fun y hy => ?_, hback⟩
    rcases List.eq_nil_or_concat front with rfl | ⟨front, x, rfl⟩
    · cases hy
      exact hc
    · rw [List.getLast?_cons_of_ne_nil (by simp)] at hy
      exact hfront y hy

/-- A text that begins with a run has this run and those of the rest. -/
theorem hasRun_append (hne : r ≠ []) (hd : ∀ c ∈ r, Token.isNumeric c = true)
    (hr : Token.startsNumeric rest = false) :
    HasRun (r ++ rest) i run ↔ i = 0 ∧ run = r ∨ ∃ j, i = r.length + j ∧ HasRun rest j run := by
  constructor
  · rintro ⟨front, back, htext, hi, hne', hd', hfront, hback⟩
    rcases List.append_eq_append_iff.mp htext with ⟨mid, rfl, rfl⟩ | ⟨mid, rfl, hmid⟩
    · refine .inr ⟨mid.length, by rw [← hi, List.length_append], mid, back, rfl, rfl, hne', hd',
        fun y hy => hfront y ?_, hback⟩
      rw [List.getLast?_append_of_ne_nil _ (by rintro rfl; cases hy)]
      exact hy
    · -- the run would take in the last character before it
      rcases List.eq_nil_or_concat front with rfl | ⟨front, x, rfl⟩
      · obtain ⟨rfl, -⟩ := append_run_inj hd' hd hback hr hmid
        exact .inl ⟨hi.symm, rfl⟩
      · have hx := hfront x (by simp)
        rw [hd x (by simp)] at hx
        cases hx
  · rintro (⟨rfl, rfl⟩ | ⟨j, rfl, front, back, rfl, rfl, hne', hd', hfront, hback⟩)
    · exact ⟨[], rest, rfl, rfl, hne, hd, nofun, hr⟩
    · refine ⟨r ++ front, back, by rw [List.append_assoc], by rw [List.length_append], hne', hd',
        fun y hy => ?_, hback⟩
      rcases List.eq_nil_or_concat front with rfl | ⟨front, x, rfl⟩
      · -- the rest cannot begin with the run
        obtain ⟨x, xs, rfl⟩ := List.exists_cons_of_ne_nil hne'
        rw [List.nil_append, List.cons_append, Token.startsNumeric_cons,
          hd' x List.mem_cons_self] at hr
        cases hr
      · rw [List.getLast?_append_of_ne_nil _ (by simp)] at hy
        exact hfront y hy

end Runs

/-! ### Faults -/

/-- What can be wrong at one place of a text. -/
inductive Fault where
  | stray (c : Char)
  | malformed (run : List Char)
  | tooLarge (run : List Char)

namespace Fault

/-- The text has the fault behind its first `i` characters. -/
def At (table : OperatorTable) (cs : List Char) (i : ℕ) : Fault → Prop
  | .stray c       => cs[i]? = some c ∧ ¬ Token.IsLegal table c
  | .malformed run => HasRun cs i run ∧ ¬ IsLiteral run
  | .tooLarge run  => HasRun cs i run ∧ IsLiteral run ∧ ¬ WithinRange run

/-- No fault stands further to the left. -/
def IsFirst (table : OperatorTable) (cs : List Char) (i : ℕ) (fault : Fault) : Prop :=
  fault.At table cs i ∧ ∀ j < i, ∀ other : Fault, ¬ other.At table cs j

/-- The failure that names the fault: a character with its position, a run with the sign that may
belong to it. -/
def IsReported (i : ℕ) (f : Failure) : Fault → Prop
  | .stray c       => f = .strayCharacter c i
  | .malformed run =>
      ∃ sign, IsSigned sign ∧ f = .malformedNumber (String.ofList (sign.toList ++ run))
  | .tooLarge run  =>
      ∃ sign, IsSigned sign ∧ f = .numberOutOfRange (String.ofList (sign.toList ++ run))

section Steps
variable {table : OperatorTable} {fault : Fault} {c : Char} {cs r rest : List Char} {i : ℕ}

/-- A character of the grammar that is in no run leaves the faults to the rest. -/
theorem at_cons_iff (hc : Token.isNumeric c = false) (hlegal : Token.IsLegal table c) :
    fault.At table (c :: cs) i ↔ ∃ j, i = 1 + j ∧ fault.At table cs j := by
  have hshift (run : List Char) : HasRun (c :: cs) i run ↔ ∃ j, i = 1 + j ∧ HasRun cs j run := by
    simp only [hasRun_cons hc, Nat.add_comm]
  cases fault with
  | stray x =>
      cases i with
      | zero =>
          refine iff_of_false (fun ⟨hx, hillegal⟩ => ?_) (by omega)
          cases hx
          exact hillegal hlegal
      | succ i => simp [At, Nat.add_comm 1]
  | malformed run => simp only [At, hshift, exists_and_right, ← and_assoc]
  | tooLarge run => simp only [At, hshift, exists_and_right, ← and_assoc]

/-- So does a run that writes a number in range. -/
theorem at_append_iff (hne : r ≠ []) (hd : ∀ c ∈ r, Token.isNumeric c = true)
    (hr : Token.startsNumeric rest = false) (hliteral : IsLiteral r) (hrange : WithinRange r) :
    fault.At table (r ++ rest) i ↔ ∃ j, i = r.length + j ∧ fault.At table rest j := by
  cases fault with
  | stray x =>
      rcases Nat.lt_or_ge i r.length with hi | hi
      · refine iff_of_false (fun ⟨hx, hillegal⟩ => hillegal (.inl (hd x ?_))) (by omega)
        rw [List.getElem?_append_left hi] at hx
        exact List.mem_of_getElem? hx
      · obtain ⟨j, rfl⟩ := Nat.exists_eq_add_of_le hi
        simp [At, List.getElem?_append_right hi]
  | malformed run =>
      simp only [At, hasRun_append hne hd hr]
      constructor
      · rintro ⟨⟨-, rfl⟩ | ⟨j, rfl, hrun⟩, hbad⟩
        · exact absurd hliteral hbad
        · exact ⟨j, rfl, hrun, hbad⟩
      · rintro ⟨j, rfl, hrun, hbad⟩
        exact ⟨.inr ⟨j, rfl, hrun⟩, hbad⟩
  | tooLarge run =>
      simp only [At, hasRun_append hne hd hr]
      constructor
      · rintro ⟨⟨-, rfl⟩ | ⟨j, rfl, hrun⟩, hbad⟩
        · exact absurd hrange hbad.2
        · exact ⟨j, rfl, hrun, hbad⟩
      · rintro ⟨j, rfl, hrun, hbad⟩
        exact ⟨.inr ⟨j, rfl, hrun⟩, hbad⟩

end Steps

/-- There is one fault at a place at most. -/
theorem At.unique {table : OperatorTable} {cs : List Char} {i : ℕ} {fault other : Fault}
    (h : fault.At table cs i) (h' : other.At table cs i) : fault = other := by
  have hnumeric {run : List Char} (hrun : HasRun cs i run) :
      ∃ c, cs[i]? = some c ∧ Token.isNumeric c = true := by
    obtain ⟨front, back, rfl, rfl, hne, hd, -⟩ := hrun
    obtain ⟨c, run, rfl⟩ := List.exists_cons_of_ne_nil hne
    exact ⟨c, by simp, hd c List.mem_cons_self⟩
  have hstray {c : Char} {run : List Char} (hrun : HasRun cs i run)
      (hc : cs[i]? = some c ∧ ¬ Token.IsLegal table c) : False := by
    obtain ⟨x, hx, hx'⟩ := hnumeric hrun
    rw [hc.1] at hx
    cases hx
    exact hc.2 (.inl hx')
  have hrun {run run' : List Char} (hrun : HasRun cs i run) (hrun' : HasRun cs i run') :
      run = run' := by
    obtain ⟨front, back, rfl, rfl, -, hd, -, hback⟩ := hrun
    obtain ⟨front', back', htext, hlength, -, hd', -, hback'⟩ := hrun'
    obtain ⟨-, htext⟩ := List.append_inj htext hlength.symm
    exact (append_run_inj hd hd' hback hback' htext).1
  cases fault with
  | stray c =>
      cases other with
      | stray c' =>
          have := h.1.symm.trans h'.1
          cases this
          rfl
      | malformed => exact (hstray h'.1 h).elim
      | tooLarge => exact (hstray h'.1 h).elim
  | malformed run =>
      cases other with
      | stray => exact (hstray h.1 h').elim
      | malformed => rw [hrun h.1 h'.1]
      | tooLarge =>
          obtain rfl := hrun h.1 h'.1
          exact absurd h'.2.1 h.2
  | tooLarge run =>
      cases other with
      | stray => exact (hstray h.1 h').elim
      | malformed =>
          obtain rfl := hrun h.1 h'.1
          exact absurd h.2.1 h'.2
      | tooLarge => rw [hrun h.1 h'.1]

/-- A text has one first fault at most. -/
theorem IsFirst.unique {table : OperatorTable} {cs : List Char} {i j : ℕ} {fault other : Fault}
    (h : fault.IsFirst table cs i) (h' : other.IsFirst table cs j) : i = j ∧ fault = other := by
  obtain rfl : i = j := by
    rcases Nat.lt_trichotomy i j with hlt | heq | hgt
    · exact absurd h.1 (h'.2 i hlt fault)
    · exact heq
    · exact absurd h'.1 (h.2 j hgt other)
  exact ⟨rfl, h.1.unique h'.1⟩

end Fault

/-! ### The scanner -/

namespace Token

/-- Tokens are the answer for a text without a fault, and the first fault is the answer for any
other; `position` is where the text begins. -/
def Settled (table : OperatorTable) (position : ℕ) (cs : List Char) :
    Except Failure (List Token) → Prop
  | .ok _    => ∀ i, ∀ fault : Fault, ¬ fault.At table cs i
  | .error f => ∃ i, ∃ fault : Fault, fault.IsFirst table cs i ∧ fault.IsReported (position + i) f

namespace Settled
variable {table : OperatorTable} {position k : ℕ} {c : Char} {cs cs' r rest : List Char}
  {x : Except Failure (List Token)}

/-- What becomes of the tokens does not change where the fault is. -/
theorem map (h : Settled table position cs x) (g : List Token → List Token) :
    Settled table position cs (g <$> x) := by
  cases x <;> exact h

/-- A fault at the very front is the first one. -/
theorem here (fault : Fault) {f : Failure} (h : fault.At table cs 0)
    (hf : fault.IsReported position f) : Settled table position cs (.error f) :=
  ⟨0, fault, ⟨h, nofun⟩, hf⟩

/-- Characters without a fault before a text. -/
theorem shift (hshift : ∀ i, ∀ fault : Fault,
      fault.At table cs' i ↔ ∃ j, i = k + j ∧ fault.At table cs j)
    (h : Settled table (position + k) cs x) : Settled table position cs' x := by
  cases x with
  | ok ts =>
      intro i fault hat
      obtain ⟨j, -, hat⟩ := (hshift i fault).mp hat
      exact h j fault hat
  | error f =>
      obtain ⟨i, fault, ⟨hat, hfirst⟩, hf⟩ := h
      refine ⟨k + i, fault, ⟨(hshift _ _).mpr ⟨i, rfl, hat⟩, fun j hj other hother => ?_⟩, ?_⟩
      · obtain ⟨j', rfl, hrest⟩ := (hshift j other).mp hother
        exact hfirst j' (by omega) other hrest
      · rwa [← Nat.add_assoc]

/-- A legal character that is in no run has no fault and adds none. -/
theorem cons (hc : isNumeric c = false) (hlegal : IsLegal table c)
    (h : Settled table (position + 1) cs x) : Settled table position (c :: cs) x :=
  h.shift fun _ _ => Fault.at_cons_iff hc hlegal

/-- A run settles a text if it is at fault, and leaves it to the rest if it is not. -/
theorem run (sign : Option Char) (hs : IsSigned sign) (hne : r ≠ [])
    (hd : ∀ c ∈ r, isNumeric c = true) (hr : startsNumeric rest = false)
    (h : Settled table (position + r.length) rest x) :
    Settled table position (r ++ rest) (do
      let t ← ofLiteral (sign.toList ++ r)
      (t :: ·) <$> x) := by
  have hrun : HasRun (r ++ rest) 0 r := (hasRun_append hne hd hr).mpr (.inl ⟨rfl, rfl⟩)
  by_cases hliteral : IsLiteral r
  · obtain ⟨d, hdec⟩ := Option.isSome_iff_exists.mp ((Decimal.fixed?_isSome_iff r).mpr hliteral)
    obtain ⟨negative, hread⟩ : ∃ negative,
        Binary64.ofFixed? (sign.toList ++ r) = some (Decimal.nearest negative d) := by
      cases sign with
      | none => exact ⟨false, by simp [Binary64.ofFixed?, Decimal.splitSign_of_numeric hd, hdec]⟩
      | some s =>
          exact ⟨s == '-', by
            simp [Binary64.ofFixed?, Decimal.splitSign_of_isSign (hs s rfl), hdec]⟩
    have hfinite : (Decimal.nearest negative d).isFinite = true ↔ WithinRange r := by
      rw [Decimal.nearest, Binary64.isFinite_ofDecimal_iff]
      simp [WithinRange, hdec, Decimal.toRat]
    rw [ofLiteral_of_some hread]
    split_ifs with hv
    · exact (h.map _).shift fun _ _ => Fault.at_append_iff hne hd hr hliteral (hfinite.mp hv)
    · exact here (.tooLarge r) ⟨hrun, hliteral, mt hfinite.mpr hv⟩ ⟨sign, hs, rfl⟩
  · have hread : Binary64.ofFixed? (sign.toList ++ r) = none := by
      rw [← Option.not_isSome_iff_eq_none, Binary64.ofFixed?_isSome_iff hs hd]
      exact hliteral
    rw [ofLiteral, hread]
    exact here (.malformed r) ⟨hrun, hliteral⟩ ⟨sign, hs, rfl⟩

end Settled

/-- The scanner settles every rest of a text, wherever it begins and whatever stands before it. -/
theorem scanFrom_settled (table : OperatorTable) (atPrefix : Bool) (position : ℕ)
    (cs : List Char) : Settled table position cs (scanFrom table atPrefix position cs) := by
  fun_induction scanFrom table atPrefix position cs with
  | case1 =>
      intro i fault hat
      cases fault with
      | stray => simp [Fault.At] at hat
      | malformed | tooLarge =>
          obtain ⟨front, back, htext, -, hne, -⟩ := hat.1
          simp [hne] at htext
  | case2 b p c cs run _ hc =>
      rename_i ih
      subst run
      have hd : ∀ x ∈ c :: cs.takeWhile isNumeric, isNumeric x = true := fun x hx =>
        (List.mem_cons.mp hx).elim (· ▸ hc) List.mem_takeWhile_imp
      have htext : c :: cs = (c :: cs.takeWhile isNumeric) ++ cs.dropWhile isNumeric := by simp
      rw [htext]
      simp only [bind_pure_comp]
      refine Settled.run none isSigned_none (List.cons_ne_nil _ _) hd
        (startsNumeric_dropWhile cs) ?_
      rwa [List.length_cons, Nat.add_comm _ 1, ← Nat.add_assoc]
  | case3 b p c cs run _ hc op hop hfuse =>
      rename_i ih
      subst run
      simp only [Bool.and_eq_true, Bool.not_eq_true', List.isEmpty_eq_false_iff] at hfuse
      obtain ⟨⟨hs, -⟩, hne⟩ := hfuse
      simp only [bind_pure_comp]
      have hrun := Settled.run (some c) (by rintro _ ⟨⟩; exact hs) hne
        (fun x hx => List.mem_takeWhile_imp hx) (startsNumeric_dropWhile cs) ih
      rw [List.takeWhile_append_dropWhile] at hrun
      exact .cons (by simpa using hc) (isLegal_of_find? hop) hrun
  | case4 b p c cs run _ hc op hop hfuse =>
      rename_i ih
      simp only [bind_pure_comp]
      exact .cons (by simpa using hc) (isLegal_of_find? hop) (ih.map _)
  | case5 b p c cs _ hc hop hpar ih =>
      obtain rfl := eq_of_beq hpar
      simp only [bind_pure_comp]
      exact .cons (by simpa using hc) (.inr (.inl rfl)) (ih.map _)
  | case6 b p c cs _ hc hop _ hpar ih =>
      obtain rfl := eq_of_beq hpar
      simp only [bind_pure_comp]
      exact .cons (by simpa using hc) (.inr (.inr (.inl rfl))) (ih.map _)
  | case7 b p c cs _ hc hop hopen hclose =>
      refine .here (.stray c) ⟨rfl, ?_⟩ rfl
      rintro (h | rfl | rfl | h)
      · exact hc h
      · exact hopen rfl
      · exact hclose rfl
      · exact OperatorTable.find?_eq_none_iff.mp hop h

/-- A text is read exactly when all of its characters are legal and each of its runs is a literal
within range. -/
theorem scanFrom_eq_ok_iff {table : OperatorTable} {atPrefix : Bool} {position : ℕ}
    {cs : List Char} : (∃ ts, scanFrom table atPrefix position cs = .ok ts) ↔
      (∀ c ∈ cs, IsLegal table c) ∧ ∀ i run, HasRun cs i run → IsLiteral run ∧ WithinRange run := by
  have hsettled := scanFrom_settled table atPrefix position cs
  constructor
  · rintro ⟨ts, hts⟩
    rw [hts] at hsettled
    refine ⟨fun c hc => by_contra fun hillegal => ?_, fun i run hrun => ?_⟩
    · obtain ⟨i, hi⟩ := List.mem_iff_getElem?.mp hc
      exact hsettled i (.stray c) ⟨hi, hillegal⟩
    · have hliteral : IsLiteral run :=
        by_contra fun hbad => hsettled i (.malformed run) ⟨hrun, hbad⟩
      exact ⟨hliteral, by_contra fun hbad => hsettled i (.tooLarge run) ⟨hrun, hliteral, hbad⟩⟩
  · rintro ⟨hlegal, hruns⟩
    cases hscan : scanFrom table atPrefix position cs with
    | ok ts => exact ⟨ts, rfl⟩
    | error f =>
        rw [hscan] at hsettled
        obtain ⟨i, fault, ⟨hat, -⟩, -⟩ := hsettled
        cases fault with
        | stray c => exact absurd (hlegal c (List.mem_of_getElem? hat.1)) hat.2
        | malformed run => exact absurd (hruns i run hat.1).1 hat.2
        | tooLarge run => exact absurd (hruns i run hat.1).2 hat.2.2

end Token

/-- **The first fault decides.**  For every table, a text has tokens exactly when each of its
characters is a digit, a point, a parenthesis or a symbol of the table, and each of its longest runs
of digits and points writes a number in range.  If the text is scanned in another place, behind
other tokens, it has tokens as well or none as well.  A text without tokens fails, with the failure
that names its leftmost fault. -/
theorem scan_faults (table : OperatorTable) (text : String) :
    ((∃ ts, Token.scan table text = .ok ts) ↔ (∀ c ∈ text.toList, Token.IsLegal table c) ∧
      ∀ i run, HasRun text.toList i run → IsLiteral run ∧ WithinRange run) ∧
    (∀ atPrefix position, (∃ ts, Token.scanFrom table atPrefix position text.toList = .ok ts) ↔
      ∃ ts, Token.scan table text = .ok ts) ∧
    (∀ f, Token.scan table text = .error f →
      ∃ i, ∃ fault : Fault, fault.IsFirst table text.toList i ∧ fault.IsReported i f) ∧
    (∀ i, ∀ fault : Fault, fault.IsFirst table text.toList i →
      ∃ f, Token.scan table text = .error f ∧ fault.IsReported i f) := by
  have hsettled := Token.scanFrom_settled table true 0 text.toList
  refine ⟨Token.scanFrom_eq_ok_iff, fun atPrefix position => ?_, fun f hf => ?_,
    fun i fault hfirst => ?_⟩
  · rw [Token.scanFrom_eq_ok_iff, Token.scan, Token.scanFrom_eq_ok_iff]
  · rw [Token.scan] at hf
    rw [hf] at hsettled
    simpa only [Token.Settled, Nat.zero_add] using hsettled
  · rw [Token.scan]
    cases hscan : Token.scanFrom table true 0 text.toList with
    | ok ts =>
        rw [hscan] at hsettled
        exact absurd hfirst.1 (hsettled i fault)
    | error f =>
        rw [hscan] at hsettled
        obtain ⟨j, other, hother, hf⟩ := hsettled
        obtain ⟨rfl, rfl⟩ := hfirst.unique hother
        rw [Nat.zero_add] at hf
        exact ⟨f, rfl, hf⟩

end Abacus
