import Mathlib.Data.List.Chain
import Abacus.Proofs.Expression.Grammar
import Abacus.Proofs.Expression.Lexeme
import Abacus.Proofs.Expression.Order

/-!
# Abacus — Expression — Which texts have a value

The order of operators and operands is never checked: the evaluator counts.  A text with a value
has balanced parentheses and one number more than operators.  Such a text is an infix expression
exactly when no two operands of it stand side by side (`infix_iff_separated`): an operator without
an operand of its own may take the one that a juxtaposition leaves over.

* `Infix.separated`: in an infix expression no two operands stand side by side.
* `infixOrder_of_balanced`: a balanced sequence whose operands are apart has at most one number
  more than operators, and is in infix order when it has one more.
-/

namespace Abacus

/-! ### Operands side by side -/

/-- Whether an operand ends with the first character and another begins with the second. -/
def abuts (a b : Char) : Bool :=
  (Token.isNumeric a || a == ')') && (Token.isNumeric b || b == '(') &&
    !(Token.isNumeric a && Token.isNumeric b)

/-- No two operands of the text stand side by side. -/
def Separated (cs : List Char) : Prop :=
  cs.IsChain fun a b => abuts a b = false

instance (cs : List Char) : Decidable (Separated cs) :=
  inferInstanceAs (Decidable (cs.IsChain _))

/-- Within a run no operand ends. -/
theorem abuts_of_numeric {a b : Char} (ha : Token.isNumeric a = true)
    (hb : Token.isNumeric b = true) : abuts a b = false := by
  simp [abuts, ha, hb]

theorem abuts_symbol_left (o : Operation) (b : Char) : abuts o.symbol b = false := by
  cases o <;> rfl

theorem abuts_symbol_right (o : Operation) (a : Char) : abuts a o.symbol = false := by
  cases o <;> simp [abuts, Operation.symbol, Token.isNumeric, Text.isPlainDigit]

/-- What an operation stands between is apart. -/
theorem Separated.around {cs ds : List Char} (o : Operation) (h : Separated cs)
    (h' : Separated ds) : Separated (cs ++ o.symbol :: ds) := by
  refine List.IsChain.append h (List.IsChain.cons h' fun b _ => abuts_symbol_left o b) ?_
  intro a _ b hb
  cases hb
  exact abuts_symbol_right o a

/-- A numeral, with or without its sign, has no operands side by side. -/
theorem Separated.literal {sign : Option Char} {ds : List Char} (hs : IsSigned sign)
    (hd : ∀ c ∈ ds, Token.isNumeric c = true) : Separated (sign.toList ++ ds) := by
  have hds : Separated ds := by
    induction ds with
    | nil => exact .nil
    | cons c cs ih =>
        refine List.IsChain.cons (ih fun x hx => hd x (List.mem_cons_of_mem c hx)) fun b hb => ?_
        exact abuts_of_numeric (hd c List.mem_cons_self)
          (hd b (List.mem_cons_of_mem c (List.mem_of_mem_head? hb)))
  cases sign with
  | none => exact hds
  | some s =>
      refine List.IsChain.cons hds fun b _ => ?_
      rcases Token.isSign_iff.mp (hs s rfl) with rfl | rfl
      · exact abuts_symbol_left .sum b
      · exact abuts_symbol_left .difference b

theorem Separated.group {cs : List Char} (h : Separated cs) : Separated ('(' :: cs ++ [')']) := by
  have hopen (b : Char) : abuts '(' b = false := rfl
  have hclose (a : Char) : abuts a ')' = false := by
    simp [abuts, Token.isNumeric, Text.isPlainDigit]
  rw [List.cons_append]
  refine List.IsChain.cons (List.IsChain.append h (List.isChain_singleton _) ?_) fun b _ => hopen b
  intro a _ b hb
  cases hb
  exact hclose a

/-- In an infix expression no two operands stand side by side. -/
theorem Infix.separated {p : Phrase} {cs : List Char} (h : Infix p cs) : Separated cs := by
  induction h with
  | literal hs hd => exact .literal hs hd.numeric
  | group _ ih => exact ih.group
  | single _ ih => exact ih
  | more o _ _ ih ih' => exact ih.around o ih'

/-! ### Sequences in infix order -/

namespace Token

/-- Sequences with an operator between any two operands. -/
inductive InfixOrder : Phrase → List Token → Prop where
  | number (v : Binary64) : InfixOrder .operand [.number v]
  | group {ts : List Token} (h : InfixOrder .expression ts) :
      InfixOrder .operand (.leftParen :: ts ++ [.rightParen])
  | single {ts : List Token} (h : InfixOrder .operand ts) : InfixOrder .expression ts
  | more {ts us : List Token} (op : OperatorToken) (h : InfixOrder .operand ts)
      (h' : InfixOrder .expression us) : InfixOrder .expression (ts ++ .operator op :: us)

def beginsOperand : Token → Bool
  | .number _ | .leftParen    => true
  | .operator _ | .rightParen => false

/-- No operand stands right behind another. -/
def Apart (ts : List Token) : Prop :=
  ts.IsChain fun t u => (!t.opensOperand && u.beginsOperand) = false

/-- What may stand behind an operand: nothing, or an operator with an expression. -/
def Continues (ts : List Token) : Prop :=
  ts = [] ∨ ∃ op us, ts = .operator op :: us ∧ InfixOrder .expression us

/-- An operand goes on to an expression with whatever may follow an operand. -/
theorem InfixOrder.append {ts us : List Token} (h : InfixOrder .operand ts) (hc : Continues us) :
    InfixOrder .expression (ts ++ us) := by
  rcases hc with rfl | ⟨op, us', rfl, hus⟩
  · rw [List.append_nil]; exact .single h
  · exact .more op h hus

/-- A balanced sequence has at most one number more than operators, and is in infix order when it
has one more; behind an operand it has no more, and continues when it has as many. -/
theorem infixOrder_of_balanced {ts : List Token} (h : Postfix.Balanced ts) (hapart : Apart ts) :
    (ts.countP isNumber ≤ ts.countP isOperator + 1 ∧
      (ts.countP isNumber = ts.countP isOperator + 1 → InfixOrder .expression ts)) ∧
    ((∀ t ∈ ts.head?, t.beginsOperand = false) →
      ts.countP isNumber ≤ ts.countP isOperator ∧
        (ts.countP isNumber = ts.countP isOperator → Continues ts)) := by
  induction h with
  | nil => exact ⟨⟨by simp, by simp⟩, fun _ => ⟨le_rfl, fun _ => .inl rfl⟩⟩
  | @number v ts _ ih =>
      -- the rest stands behind an operand, so the second part of the hypothesis applies to it
      obtain ⟨hhead, htail⟩ := List.isChain_cons.mp hapart
      obtain ⟨hle, heq⟩ := (ih htail).2 fun t ht => by simpa [opensOperand] using hhead t ht
      have hnum : (Token.number v :: ts).countP isNumber = ts.countP isNumber + 1 :=
        List.countP_cons_of_pos rfl
      have hops : (Token.number v :: ts).countP isOperator = ts.countP isOperator := rfl
      refine ⟨⟨by omega, fun hcount => ?_⟩, fun hno => ?_⟩
      · exact (InfixOrder.number v).append (heq (by omega))
      · cases hno _ rfl
  | @operator op ts _ ih =>
      -- an operator in an operand's place can no longer be made up for
      obtain ⟨hle, heq⟩ := (ih (List.isChain_cons.mp hapart).2).1
      have hnum : (Token.operator op :: ts).countP isNumber = ts.countP isNumber := rfl
      have hops : (Token.operator op :: ts).countP isOperator = ts.countP isOperator + 1 :=
        List.countP_cons_of_pos rfl
      refine ⟨⟨by omega, fun hcount => by omega⟩, fun _ => ⟨by omega, fun hcount => ?_⟩⟩
      exact .inr ⟨op, ts, rfl, heq (by omega)⟩
  | @group ts us _ _ ihin ih =>
      obtain ⟨hin, hrest⟩ := List.isChain_append.mp (List.isChain_cons.mp hapart).2
      obtain ⟨hhead, htail⟩ := List.isChain_cons.mp hrest.1
      obtain ⟨hlein, heqin⟩ := (ihin hin).1
      obtain ⟨hle, heq⟩ := (ih htail).2 fun t ht => by simpa [opensOperand] using hhead t ht
      have hnum : (Token.leftParen :: ts ++ .rightParen :: us).countP isNumber =
          ts.countP isNumber + us.countP isNumber := List.countP_append
      have hops : (Token.leftParen :: ts ++ .rightParen :: us).countP isOperator =
          ts.countP isOperator + us.countP isOperator := List.countP_append
      refine ⟨⟨by omega, fun hcount => ?_⟩, fun hno => ?_⟩
      · have := (InfixOrder.group (heqin (by omega))).append (heq (by omega))
        rwa [List.cons_append, List.cons_append, List.append_assoc,
          List.singleton_append] at this
      · cases hno _ rfl

end Token

/-! ### From tokens to the text -/

/-- Behind an operand no sign belongs to a number, so an operand begins there with a digit, a point
or a parenthesis. -/
theorem Placed.not_beginsOperand {table : OperatorTable} {ls : List Lexeme} {ts : List Token}
    (h : Placed table false ls) (hs : List.Forall₂ (Lexeme.Spells table) ls ts)
    (hhead : ∀ c ∈ (Lexeme.text ls).head?, (Token.isNumeric c || c == '(') = false) :
    ∀ t ∈ ts.head?, t.beginsOperand = false := by
  cases h with
  | nil => cases hs; simp
  | @run _ ds _ hne hd =>
      obtain ⟨c, cs, rfl⟩ := List.exists_cons_of_ne_nil hne
      have := hhead c rfl
      rw [hd c List.mem_cons_self] at this
      cases this
  | opening => cases hhead '(' rfl
  | symbol =>
      obtain ⟨t, us, ⟨-, ⟨⟩⟩, -, rfl⟩ := List.forall₂_cons_left_iff.mp hs
      simp [Token.beginsOperand]
  | closing =>
      obtain ⟨t, us, ⟨-, ⟨⟩⟩, -, rfl⟩ := List.forall₂_cons_left_iff.mp hs
      simp [Token.beginsOperand]

/-- What stands behind a run and is apart from it does not begin an operand. -/
theorem Separated.behind_run {ds rest : List Char} (h : Separated (ds ++ rest)) (hne : ds ≠ [])
    (hd : ∀ c ∈ ds, Token.isNumeric c = true) (hr : Token.startsNumeric rest = false) :
    Separated rest ∧ ∀ c ∈ rest.head?, (Token.isNumeric c || c == '(') = false := by
  obtain ⟨-, hrest, hbetween⟩ := List.isChain_append.mp h
  refine ⟨hrest, fun c hc => ?_⟩
  have hnumeric : Token.isNumeric c = false := by
    rw [Token.startsNumeric, Option.mem_def.mp hc] at hr
    exact hr
  have habuts := hbetween _ (List.getLast?_eq_some_getLast hne) c hc
  simpa [abuts, hd _ (List.getLast_mem hne), hnumeric] using habuts

/-- In a text whose operands are apart, so are the tokens. -/
theorem Placed.apart {table : OperatorTable} {atPrefix : Bool} {ls : List Lexeme}
    {ts : List Token} (h : Placed table atPrefix ls)
    (hs : List.Forall₂ (Lexeme.Spells table) ls ts) (hsep : Separated (Lexeme.text ls)) :
    Token.Apart ts := by
  induction h generalizing ts with
  | nil => cases hs; exact .nil
  | run hne hd hr h ih =>
      obtain ⟨t, us, -, hus, rfl⟩ := List.forall₂_cons_left_iff.mp hs
      obtain ⟨hrest, hhead⟩ := hsep.behind_run hne hd hr
      refine List.IsChain.cons (ih hus hrest) fun u hu => ?_
      rw [h.not_beginsOperand hus hhead u hu, Bool.and_false]
  | @signed _ _ ds ls _ _ hne hd hr h ih =>
      obtain ⟨t, us, -, hus, rfl⟩ := List.forall₂_cons_left_iff.mp hs
      have hsep : Separated (ds ++ Lexeme.text ls) := (List.isChain_cons.mp hsep).2
      obtain ⟨hrest, hhead⟩ := hsep.behind_run hne hd hr
      refine List.IsChain.cons (ih hus hrest) fun u hu => ?_
      rw [h.not_beginsOperand hus hhead u hu, Bool.and_false]
  | symbol _ _ _ _ ih =>
      obtain ⟨t, us, ⟨-, ⟨⟩⟩, hus, rfl⟩ := List.forall₂_cons_left_iff.mp hs
      exact List.IsChain.cons (ih hus (List.isChain_cons.mp hsep).2) fun u _ => rfl
  | opening _ _ ih =>
      obtain ⟨t, us, ⟨-, ⟨⟩⟩, hus, rfl⟩ := List.forall₂_cons_left_iff.mp hs
      exact List.IsChain.cons (ih hus (List.isChain_cons.mp hsep).2) fun u _ => rfl
  | closing _ h ih =>
      obtain ⟨t, us, -, hus, rfl⟩ := List.forall₂_cons_left_iff.mp hs
      obtain ⟨hbetween, hrest⟩ := List.isChain_cons.mp hsep
      have hhead : ∀ c ∈ (Lexeme.text _).head?, (Token.isNumeric c || c == '(') = false :=
        fun c hc => by simpa [abuts, Token.isNumeric, Text.isPlainDigit] using hbetween c hc
      refine List.IsChain.cons (ih hus hrest) fun u hu => ?_
      rw [h.not_beginsOperand hus hhead u hu, Bool.and_false]

theorem exists_append_of_forall₂ {α β : Type} {R : α → β → Prop} {as : List α} {bs cs : List β}
    (h : List.Forall₂ R as (bs ++ cs)) :
    ∃ ds es, as = ds ++ es ∧ List.Forall₂ R ds bs ∧ List.Forall₂ R es cs :=
  ⟨_, _, (List.take_append_drop bs.length as).symm, List.forall₂_take_append _ _ _ h,
    List.forall₂_drop_append _ _ _ h⟩

/-- The text of tokens in infix order is an infix expression. -/
theorem Token.InfixOrder.infix {p : Phrase} {ts : List Token} (h : InfixOrder p ts)
    {ls : List Lexeme} (hs : List.Forall₂ (Lexeme.Spells .arithmetic) ls ts) :
    Infix p (Lexeme.text ls) := by
  induction h generalizing ls with
  | number v =>
      obtain ⟨l, ms, hl, hms, rfl⟩ := List.forall₂_cons_right_iff.mp hs
      obtain ⟨sign, ds, rfl, hsign, hd, -⟩ := hl.number
      cases hms
      rw [Lexeme.text_cons, Lexeme.text_nil, List.append_nil]
      exact .literal hsign hd
  | group _ ih =>
      rw [List.cons_append] at hs
      obtain ⟨l, ms, hl, hms, rfl⟩ := List.forall₂_cons_right_iff.mp hs
      obtain ⟨ms, ns, rfl, hin, hns⟩ := exists_append_of_forall₂ hms
      obtain ⟨r, ns, hr, hnil, rfl⟩ := List.forall₂_cons_right_iff.mp hns
      obtain rfl := hl.leftParen
      obtain rfl := hr.rightParen
      cases hnil
      simpa [Lexeme.spelling] using (ih hin).group
  | single _ ih => exact .single (ih hs)
  | more op _ _ ih ih' =>
      obtain ⟨ms, ns, rfl, hms, hns⟩ := exists_append_of_forall₂ hs
      obtain ⟨l, ns, hl, hrest, rfl⟩ := List.forall₂_cons_right_iff.mp hns
      obtain ⟨entry, rfl, hentry, -⟩ := hl.operator
      obtain ⟨o, rfl⟩ := OperatorTable.exists_operation (List.mem_of_find?_eq_some hentry)
      have := (ih hms).cons o (ih' hrest)
      simpa [Lexeme.spelling, o.entry_symbol] using this

/-- **A text with a value is an infix expression exactly when its operands are apart.** -/
theorem infix_iff_separated {raw : String} {v : Binary64}
    (h : verdict .arithmetic raw = .ok (.ok v)) :
    Infix .expression (canonicalText raw).toList ↔ Separated (canonicalText raw).toList := by
  refine ⟨Infix.separated, fun hsep => ?_⟩
  obtain ⟨ts, hscan, hvalue⟩ := verdict_eq_ok_iff.mp h
  obtain ⟨out, hout, hrun⟩ := Postfix.valueOfInfix_eq_ok_iff.mp hvalue
  obtain ⟨ls, hplaced, htext, hspells⟩ := Token.exists_spells hscan
  rw [← htext] at hsep ⊢
  have hapart : Token.Apart ts := hplaced.apart hspells hsep
  have horder : Token.InfixOrder .expression ts :=
    (Token.infixOrder_of_balanced (Postfix.balanced_of_ofInfix hout) hapart).1.2
      (Postfix.countP_of_run hout hrun)
  exact horder.infix hspells

/-- `1+2` has a value and no operands side by side, and it is an infix expression. -/
theorem infix_of_separated_sum :
    verdict .arithmetic "1+2" = .ok (.ok (Binary64.ofInt 3)) ∧
      (Infix .expression (canonicalText "1+2").toList ↔
        Separated (canonicalText "1+2").toList) := by
  have h : verdict .arithmetic "1+2" = .ok (.ok (Binary64.ofInt 3)) := by decide +kernel
  exact ⟨h, infix_iff_separated h⟩

/-- The minus has no operand of its own, and takes the two that stand side by side. -/
theorem verdict_of_juxtaposed :
    verdict .arithmetic "-(1)(2)" = .ok (.ok (Binary64.ofInt (-1))) ∧
      ¬ Infix .expression (canonicalText "-(1)(2)").toList := by
  have hsep : ¬ Separated (canonicalText "-(1)(2)").toList := by decide +kernel
  exact ⟨by decide +kernel, fun h => hsep h.separated⟩

end Abacus
