import Mathlib.Data.List.Chain
import Abacus.Proofs.Expression.Arithmetic
import Abacus.Proofs.Expression.Lexeme

/-!
# Abacus — Expression — Where lexemes may stand

Lexemes can be read back from the text that they write one after another if each of them fits behind
those before it (`Lexeme.WellPlaced`): a signed number only where an operand begins, and an unsigned
one neither right behind another number nor behind a sign that would take it.  Every text that has
tokens is written by one such sequence and by no other (`scan_wellPlaced`).

* `Placed.unique`: a text has one sequence of lexemes as the scanner reads them, since its first
  character and the run behind it give the first lexeme (`Placed.firstLexeme?_eq`).
* `placed_of_wellPlaced` and `wellPlacedAfter_of_placed`: what a lexeme demands of the text behind
  it is what the lexeme behind it demands of this one.
-/

namespace Abacus

/-- The table has both signs, and none of its symbols is used for anything else. -/
structure OperatorTable.KeepsSigns (table : OperatorTable) : Prop where
  plus : '+' ∈ table.symbols
  minus : '-' ∈ table.symbols
  apart : ∀ c ∈ table.symbols, Token.isNumeric c = false ∧ c ≠ '(' ∧ c ≠ ')'

namespace Lexeme

/-! ### Fitting lexemes -/

def isRun : Lexeme → Bool
  | .run ..                         => true
  | .symbol _ | .opening | .closing => false

/-- Whether an operand begins behind these lexemes, the latest first. -/
def atPrefix : List Lexeme → Bool
  | []                                => true
  | .symbol _ :: _ | .opening :: _    => true
  | .run .. :: _ | .closing :: _      => false

/-- Whether the latest lexeme is a sign that stands where an operand begins. -/
def endsWithPrefixSign : List Lexeme → Bool
  | .symbol op :: before => Token.isSign op.symbol && atPrefix before
  | _                    => false

/-- What may stand behind the lexemes `before`, the latest first. -/
def Fits (before : List Lexeme) : Lexeme → Prop
  | .run (some _) _                 => atPrefix before = true
  | .run none _                     =>
      before.head?.any isRun = false ∧ endsWithPrefixSign before = false
  | .symbol _ | .opening | .closing => True

/-- Each lexeme fits behind those before it and behind `before`. -/
def WellPlacedAfter (before : List Lexeme) : List Lexeme → Prop
  | []      => True
  | l :: ls => l.Fits before ∧ WellPlacedAfter (l :: before) ls

/-- Each lexeme fits behind those before it. -/
def WellPlaced (ls : List Lexeme) : Prop :=
  WellPlacedAfter [] ls

/-- Lexemes are well placed in parts, the later ones behind the earlier. -/
theorem wellPlacedAfter_append {before ls ms : List Lexeme} :
    WellPlacedAfter before (ls ++ ms) ↔
      WellPlacedAfter before ls ∧ WellPlacedAfter (ls.reverse ++ before) ms := by
  induction ls generalizing before with
  | nil => simp [WellPlacedAfter]
  | cons l ls ih => simp [WellPlacedAfter, ih, and_assoc]

/-- Whether an operand begins behind a lexeme. -/
def opensOperand (l : Lexeme) : Bool :=
  atPrefix [l]

end Lexeme

/-! ### One reading -/

namespace Placed
variable {table : OperatorTable} {b : Bool} {l : Lexeme} {ls ms : List Lexeme}

theorem tail (h : Placed table b (l :: ls)) : Placed table l.opensOperand ls := by
  cases h <;> assumption

theorem spelling_ne_nil (h : Placed table b (l :: ls)) : l.spelling ≠ [] := by
  cases h <;> simp_all [Lexeme.spelling]

end Placed

/-- The first lexeme of a text as the scanner reads it. -/
def firstLexeme? (table : OperatorTable) (atPrefix : Bool) : List Char → Option Lexeme
  | []      => none
  | c :: cs =>
      let run := cs.takeWhile Token.isNumeric
      if Token.isNumeric c then some (.run none (c :: run))
      else match table.find? c with
        | some op =>
            some (if Token.isSign c && atPrefix && !run.isEmpty then .run (some c) run
              else .symbol op)
        | none => some (if c = '(' then .opening else .closing)

namespace Placed
variable {table : OperatorTable} {b : Bool} {l : Lexeme} {ls ms : List Lexeme}

/-- The text alone tells its first lexeme. -/
theorem firstLexeme?_eq (h : Placed table b (l :: ls)) :
    firstLexeme? table b (Lexeme.text (l :: ls)) = some l := by
  rw [Lexeme.text_cons]
  cases h with
  | run hne hd hr =>
      rename_i ds
      obtain ⟨c, cs, rfl⟩ := List.exists_cons_of_ne_nil hne
      obtain ⟨htake, -⟩ := Token.takeWhile_run (fun x hx => hd x (List.mem_cons_of_mem c hx)) hr
      simp [Lexeme.spelling, firstLexeme?, hd c List.mem_cons_self, htake]
  | signed hs hop hne hd hr =>
      obtain ⟨htake, -⟩ := Token.takeWhile_run hd hr
      simp [Lexeme.spelling, firstLexeme?, Token.isNumeric_of_isSign hs, hop, hs, htake, hne]
  | symbol hn hop hfuse =>
      simp [Lexeme.spelling, firstLexeme?, hn, hop, Token.isEmpty_takeWhile, hfuse]
  | opening hop => simp [Lexeme.spelling, firstLexeme?, hop, Token.isNumeric, Text.isPlainDigit]
  | closing hop => simp [Lexeme.spelling, firstLexeme?, hop, Token.isNumeric, Text.isPlainDigit]

/-- No text has two readings. -/
theorem unique (h : Placed table b ls) (h' : Placed table b ms)
    (htext : Lexeme.text ls = Lexeme.text ms) : ls = ms := by
  induction ls generalizing b ms with
  | nil =>
      cases ms with
      | nil => rfl
      | cons m ms =>
          rw [Lexeme.text_nil, Lexeme.text_cons] at htext
          exact absurd (List.append_eq_nil_iff.mp htext.symm).1 h'.spelling_ne_nil
  | cons l ls ih =>
      cases ms with
      | nil =>
          rw [Lexeme.text_nil, Lexeme.text_cons] at htext
          exact absurd (List.append_eq_nil_iff.mp htext).1 h.spelling_ne_nil
      | cons m ms =>
          have hhead := h.firstLexeme?_eq
          rw [htext, h'.firstLexeme?_eq] at hhead
          obtain rfl := Option.some.inj hhead
          rw [Lexeme.text_cons, Lexeme.text_cons, List.append_cancel_left_eq] at htext
          rw [ih h.tail h'.tail htext]

end Placed

/-! ### Fitting and reading -/

/-- A run that spells a token is a literal behind a sign or none. -/
theorem Lexeme.Spells.isLiteral {table : OperatorTable} {sign : Option Char} {ds : List Char}
    {t : Token} (h : (Lexeme.run sign ds).Spells table t) : IsSigned sign ∧ IsLiteral ds := by
  obtain ⟨⟨hs, hd⟩, ht⟩ := h
  obtain ⟨v, hv, -, -⟩ := Token.ofLiteral_eq_ok_iff.mp ht
  exact ⟨hs, (Binary64.ofFixed?_isSome_iff hs hd).mp (by rw [hv]; rfl)⟩

namespace OperatorTable.KeepsSigns
variable {table : OperatorTable}

/-- A table that keeps the signs has an operator for each of them. -/
theorem exists_find?_of_isSign (h : table.KeepsSigns) {s : Char} (hs : Token.isSign s = true) :
    ∃ op, table.find? s = some op := by
  rw [exists_find?_iff]
  rcases Token.isSign_iff.mp hs with rfl | rfl
  · exact h.plus
  · exact h.minus

theorem isNumeric_symbol (h : table.KeepsSigns) {op : Operator}
    (hop : table.find? op.symbol = some op) : Token.isNumeric op.symbol = false :=
  (h.apart _ (exists_find?_iff.mp ⟨op, hop⟩)).1

theorem find?_leftParen (h : table.KeepsSigns) : table.find? '(' = none :=
  find?_eq_none_iff.mpr fun hc => (h.apart _ hc).2.1 rfl

theorem find?_rightParen (h : table.KeepsSigns) : table.find? ')' = none :=
  find?_eq_none_iff.mpr fun hc => (h.apart _ hc).2.2 rfl

end OperatorTable.KeepsSigns

section Reading
variable {table : OperatorTable} {b : Bool} {before ls : List Lexeme}

/-- Each of the lexemes that spell some tokens spells one of them. -/
theorem Lexeme.exists_spells {ts : List Token} (h : List.Forall₂ (Spells table) ls ts) :
    ∀ l ∈ ls, ∃ t, l.Spells table t :=
  ((List.forall₂_and_left ls ts).mp (h.imp fun _ t hl => ⟨⟨t, hl⟩, hl⟩)).1

/-- Only an unsigned number begins with a digit or a point. -/
theorem exists_run_of_startsNumeric (htable : table.KeepsSigns)
    (hspells : ∀ l ∈ ls, ∃ t, l.Spells table t)
    (h : Token.startsNumeric (Lexeme.text ls) = true) : ∃ ds ms, ls = .run none ds :: ms := by
  cases ls with
  | nil => cases h
  | cons l ms =>
      obtain ⟨t, hl⟩ := hspells l List.mem_cons_self
      rw [Lexeme.text_cons] at h
      cases l with
      | run sign ds =>
          cases sign with
          | none => exact ⟨ds, ms, rfl⟩
          | some s =>
              have hs : Token.isNumeric s = true := h
              rw [Token.isNumeric_of_isSign (hl.isLiteral.1 s rfl)] at hs
              cases hs
      | symbol op =>
          have hop : Token.isNumeric op.symbol = true := h
          rw [htable.isNumeric_symbol hl.1] at hop
          cases hop
      | opening | closing => cases h

/-- Lexemes that fit are read as they are. -/
theorem placed_of_wellPlaced (htable : table.KeepsSigns)
    (hspells : ∀ l ∈ ls, ∃ t, l.Spells table t) (h : Lexeme.WellPlacedAfter before ls) :
    Placed table (Lexeme.atPrefix before) ls := by
  induction ls generalizing before with
  | nil => exact .nil
  | cons l ls ih =>
      obtain ⟨hfits, hrest⟩ := h
      obtain ⟨⟨t, hl⟩, hspells⟩ := List.forall_mem_cons.mp hspells
      have hplaced := ih hspells hrest
      -- a digit or a point behind this lexeme begins an unsigned number, which has to fit
      have hnext (hn : Token.startsNumeric (Lexeme.text ls) = true) :
          l.isRun = false ∧ Lexeme.endsWithPrefixSign (l :: before) = false := by
        obtain ⟨ds, ms, rfl⟩ := exists_run_of_startsNumeric htable hspells hn
        exact hrest.1
      cases l with
      | run sign ds =>
          obtain ⟨hs, hliteral⟩ := hl.isLiteral
          have hr : Token.startsNumeric (Lexeme.text ls) = false := by
            rw [Bool.eq_false_iff]
            exact fun hn => Bool.noConfusion (hnext hn).1
          cases sign with
          | none => exact .run hliteral.ne_nil hliteral.numeric hr hplaced
          | some s =>
              obtain ⟨op, hop⟩ := htable.exists_find?_of_isSign (hs s rfl)
              rw [show Lexeme.atPrefix before = true from hfits]
              exact .signed (hs s rfl) hop hliteral.ne_nil hliteral.numeric hr hplaced
      | symbol op =>
          refine .symbol (htable.isNumeric_symbol hl.1) hl.1 ?_ hplaced
          rw [Bool.eq_false_iff, Ne, Bool.and_eq_true]
          rintro ⟨hsign, hn⟩
          have hnone : (Token.isSign op.symbol && Lexeme.atPrefix before) = false := (hnext hn).2
          rw [hsign] at hnone
          cases hnone
      | opening => exact .opening htable.find?_leftParen hplaced
      | closing => exact .closing htable.find?_rightParen hplaced

/-- What is read fits.  Behind a number, and behind a sign that stands where an operand begins, the
text has no digit and no point. -/
theorem wellPlacedAfter_of_placed (h : Placed table b ls) (hb : Lexeme.atPrefix before = b)
    (hnext : Token.startsNumeric (Lexeme.text ls) = true →
      before.head?.any Lexeme.isRun = false ∧ Lexeme.endsWithPrefixSign before = false) :
    Lexeme.WellPlacedAfter before ls := by
  have hclosed {rest : List Lexeme} (hr : Token.startsNumeric (Lexeme.text rest) = false)
      {p : Prop} (hn : Token.startsNumeric (Lexeme.text rest) = true) : p := by
    rw [hr] at hn
    cases hn
  induction h generalizing before with
  | nil => trivial
  | @run _ ds ls hne hd hr _ ih =>
      obtain ⟨c, cs, rfl⟩ := List.exists_cons_of_ne_nil hne
      exact ⟨hnext (hd c List.mem_cons_self), ih rfl (hclosed hr)⟩
  | signed _ _ _ _ hr _ ih => exact ⟨hb, ih rfl (hclosed hr)⟩
  | symbol hn hop hfuse _ ih =>
      refine ⟨trivial, ih rfl fun hstarts => ⟨rfl, ?_⟩⟩
      rwa [hstarts, Bool.and_true, ← hb] at hfuse
  | opening _ _ ih => exact ⟨trivial, ih rfl fun _ => ⟨rfl, rfl⟩⟩
  | closing _ _ ih => exact ⟨trivial, ih rfl fun _ => ⟨rfl, rfl⟩⟩

/-! ### Numbers and signs -/

/-- Runs spell the numbers, and nothing else does. -/
theorem Lexeme.Spells.isNumber_eq {l : Lexeme} {t : Token} (h : l.Spells table t) :
    t.isNumber = l.isRun := by
  obtain ⟨-, ht⟩ := h
  cases l with
  | run =>
      obtain ⟨v, -, -, rfl⟩ := Token.ofLiteral_eq_ok_iff.mp ht
      rfl
  | symbol | opening | closing =>
      cases ht
      rfl

/-- No number stands right behind another. -/
theorem Lexeme.WellPlacedAfter.isChain {ts : List Token}
    (hs : List.Forall₂ (Lexeme.Spells table) ls ts) (h : WellPlacedAfter before ls) :
    ts.IsChain fun t u => ¬ (t.isNumber = true ∧ u.isNumber = true) := by
  induction hs generalizing before with
  | nil => exact .nil
  | @cons l t ls ts hl hs ih =>
      obtain ⟨-, hrest⟩ := h
      refine List.IsChain.cons (ih hrest) fun u hu => ?_
      cases hs with
      | nil => cases hu
      | @cons m u' ms us hm _ =>
          obtain rfl := Option.some.inj hu
          rw [hl.isNumber_eq, hm.isNumber_eq]
          rintro ⟨hlrun, hmrun⟩
          have hfits := hrest.1
          cases l with
          | symbol | opening | closing => cases hlrun
          | run =>
              cases m with
              | symbol | opening | closing => cases hmrun
              | run sign =>
                  cases sign with
                  | none => exact Bool.noConfusion hfits.1
                  | some s => exact Bool.noConfusion hfits

/-- A sign is read with a number exactly where an operand begins and a digit or a point follows. -/
theorem Lexeme.WellPlaced.exists_run_iff (htable : table.KeepsSigns)
    (hspells : ∀ l ∈ ls, ∃ t, l.Spells table t) (h : Lexeme.WellPlaced ls)
    {front back : List Lexeme} {l : Lexeme} {s : Char} {rest : List Char}
    (hls : ls = front ++ l :: back) (hs : Token.isSign s = true) (hl : l.spelling = s :: rest) :
    (∃ ds, l = .run (some s) ds) ↔ Lexeme.atPrefix front.reverse = true ∧
      Token.startsNumeric (rest ++ Lexeme.text back) = true := by
  subst hls
  obtain ⟨-, hfits, hback⟩ := Lexeme.wellPlacedAfter_append.mp h
  rw [List.append_nil] at hfits hback
  constructor
  · rintro ⟨ds, rfl⟩
    obtain ⟨t, hspell⟩ := hspells (.run (some s) ds) (by simp)
    obtain ⟨-, hliteral⟩ := hspell.isLiteral
    obtain ⟨c, cs, rfl⟩ := List.exists_cons_of_ne_nil hliteral.ne_nil
    obtain ⟨-, rfl⟩ := List.cons.inj hl
    exact ⟨hfits, hliteral.numeric c List.mem_cons_self⟩
  · rintro ⟨hbegins, hn⟩
    have hnumeric := Token.isNumeric_of_isSign hs
    obtain ⟨t, hspell⟩ := hspells l (by simp)
    cases l with
    | run sign ds =>
        obtain ⟨-, hliteral⟩ := hspell.isLiteral
        cases sign with
        | some s' =>
            obtain ⟨rfl, -⟩ := List.cons.inj hl
            exact ⟨ds, rfl⟩
        | none =>
            have hdigit := hliteral.numeric s (by rw [show ds = s :: rest from hl]; simp)
            rw [hnumeric] at hdigit
            cases hdigit
    | symbol op =>
        obtain ⟨rfl, rfl⟩ := List.cons.inj hl
        obtain ⟨ds, ms, rfl⟩ := exists_run_of_startsNumeric htable
          (fun m hm => hspells m (by simp [hm])) hn
        have hnone : (Token.isSign op.symbol && Lexeme.atPrefix front.reverse) = false :=
          hback.1.2
        rw [hs, hbegins] at hnone
        cases hnone
    | opening | closing =>
        obtain ⟨rfl, -⟩ := List.cons.inj hl
        cases hs

end Reading

/-- **Texts are read as they are written.**  In a table with both signs, none of whose symbols is a
digit, a point or a parenthesis, lexemes that fit behind one another have one token each, in their
order, when their text is scanned.  Every text that has tokens is written by lexemes that spell
these tokens and fit, and by no others that fit.  So no two of its tokens that stand side by side
are numbers, and a sign belongs to a number exactly where an operand begins and a digit or a point
follows. -/
theorem scan_wellPlaced {table : OperatorTable} (htable : table.KeepsSigns) :
    (∀ ls ts, List.Forall₂ (Lexeme.Spells table) ls ts → Lexeme.WellPlaced ls →
      Token.scan table (String.ofList (Lexeme.text ls)) = .ok ts) ∧
    ∀ text ts, Token.scan table text = .ok ts →
      ∃ ls, List.Forall₂ (Lexeme.Spells table) ls ts ∧ Lexeme.WellPlaced ls ∧
        Lexeme.text ls = text.toList ∧
        (∀ ms, (∀ m ∈ ms, ∃ t, m.Spells table t) → Lexeme.WellPlaced ms →
          Lexeme.text ms = text.toList → ms = ls) ∧
        (ts.IsChain fun t u => ¬ (t.isNumber = true ∧ u.isNumber = true)) ∧
        ∀ front l back s rest, ls = front ++ l :: back → Token.isSign s = true →
          l.spelling = s :: rest → ((∃ ds, l = .run (some s) ds) ↔
            Lexeme.atPrefix front.reverse = true ∧
              Token.startsNumeric (rest ++ Lexeme.text back) = true) := by
  refine ⟨fun ls ts hs hplaced => ?_, fun text ts hscan => ?_⟩
  · have hread : Placed table true ls :=
      placed_of_wellPlaced htable (Lexeme.exists_spells hs) hplaced
    rw [Token.scan, String.toList_ofList, Token.scanFrom_text hread]
    exact Except.mapM_eq_ok_iff.mpr (hs.imp fun _ _ h => h.2)
  · obtain ⟨ls, hread, htext, hs⟩ := Token.exists_spells hscan
    have hplaced : Lexeme.WellPlaced ls :=
      wellPlacedAfter_of_placed hread rfl fun _ => ⟨rfl, rfl⟩
    refine ⟨ls, hs, hplaced, htext, fun ms hms hfits hms' => ?_, hplaced.isChain hs, ?_⟩
    · exact (placed_of_wellPlaced htable hms hfits).unique hread (hms'.trans htext.symm)
    · intro front l back s rest hls hsign hl
      exact hplaced.exists_run_iff htable (Lexeme.exists_spells hs) hls hsign hl

/-- Two signs where an operand begins, the second of them with a digit behind it, and a sign behind
an operand. -/
theorem scan_wellPlaced_of_three_signs :
    let minus := Lexeme.symbol Operation.difference.entry
    let ls := [minus, .run (some '-') ['2'], minus, .run none ['5']]
    OperatorTable.arithmetic.KeepsSigns ∧
      Token.scan .arithmetic "--2-5" = .ok [.operator Operation.difference.token,
        .number (.ofInt (-2)), .operator Operation.difference.token, .number (.ofInt 5)] ∧
      ∀ ms, (∀ m ∈ ms, ∃ t, m.Spells .arithmetic t) → Lexeme.WellPlaced ms →
        Lexeme.text ms = "--2-5".toList → ms = ls := by
  intro minus ls
  have hsymbols : OperatorTable.arithmetic.symbols = ['+', '-', '*', '/'] := rfl
  have htable : OperatorTable.arithmetic.KeepsSigns := by
    refine ⟨by decide, by decide, ?_⟩
    rw [hsymbols]
    simp [Token.isNumeric, Text.isPlainDigit]
  have hminus : minus.Spells .arithmetic (.operator Operation.difference.token) := ⟨rfl, rfl⟩
  have hsigned : (Lexeme.run (some '-') ['2']).Spells .arithmetic (.number (.ofInt (-2))) :=
    ⟨⟨by simp [IsSigned, Token.isSign], by simp [Token.isNumeric, Text.isPlainDigit]⟩,
      by decide +kernel⟩
  have hunsigned : (Lexeme.run none ['5']).Spells .arithmetic (.number (.ofInt 5)) :=
    ⟨⟨isSigned_none, by simp [Token.isNumeric, Text.isPlainDigit]⟩, by decide +kernel⟩
  have hfits : Lexeme.WellPlaced ls := ⟨trivial, rfl, trivial, ⟨rfl, rfl⟩, trivial⟩
  have hspells := List.Forall₂.cons hminus <| .cons hsigned <| .cons hminus <|
    .cons hunsigned .nil
  have hscan := (scan_wellPlaced htable).1 ls _ hspells hfits
  refine ⟨htable, hscan, fun ms hms hplaced htext => ?_⟩
  obtain ⟨ls', -, -, -, hunique, -⟩ := (scan_wellPlaced htable).2 _ _ hscan
  rw [hunique ms hms hplaced htext]
  exact (hunique ls (Lexeme.exists_spells hspells) hfits String.toList_ofList.symm).symm

end Abacus
