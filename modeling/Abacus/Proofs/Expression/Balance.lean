import Abacus.Proofs.Expression.Order

/-!
# Abacus — Expression — Balance

Whether tokens in any order have a postfix order hangs on their parentheses alone
(`ofInfix_verdict`).  The conversion fails at the first parenthesis that closes nothing
(`Overcloses`), and at the end if one stays open; the induction carries how many are open.
-/

namespace Abacus.Postfix
variable {k : ℕ} {ts us : List Token}

/-- With `k` parentheses open, some part at the front closes more than are open then. -/
def Overcloses (k : ℕ) (ts : List Token) : Prop :=
  ∃ front, front <+: ts ∧ k + front.count .leftParen < front.count .rightParen

theorem not_overcloses_nil : ¬ Overcloses k [] := by
  rintro ⟨front, hfront, h⟩
  rw [List.prefix_nil.mp hfront] at h
  simp at h

/-- The part at the front that closes too much begins with the first token. -/
theorem overcloses_cons {t : Token} : Overcloses k (t :: ts) ↔
    ∃ front, front <+: ts ∧ k + (t :: front).count .leftParen < (t :: front).count .rightParen := by
  constructor
  · rintro ⟨whole, hwhole, h⟩
    rcases List.prefix_cons_iff.mp hwhole with rfl | ⟨front, rfl, hfront⟩
    · simp at h
    · exact ⟨front, hfront, h⟩
  · rintro ⟨front, hfront, h⟩
    exact ⟨t :: front, List.prefix_cons_iff.mpr (.inr ⟨front, rfl, hfront⟩), h⟩

theorem overcloses_number (v : Binary64) : Overcloses k (.number v :: ts) ↔ Overcloses k ts := by
  rw [overcloses_cons]
  simp [Overcloses]

theorem overcloses_operator (op : OperatorToken) :
    Overcloses k (.operator op :: ts) ↔ Overcloses k ts := by
  rw [overcloses_cons]
  simp [Overcloses]

/-- A parenthesis that opens leaves room for one more that closes. -/
theorem overcloses_leftParen : Overcloses k (.leftParen :: ts) ↔ Overcloses (k + 1) ts := by
  rw [overcloses_cons]
  simp [Overcloses, Nat.add_assoc, Nat.add_comm 1]

/-- One that closes uses up one that is open. -/
theorem overcloses_rightParen : Overcloses (k + 1) (.rightParen :: ts) ↔ Overcloses k ts := by
  rw [overcloses_cons]
  simp [Overcloses, Nat.add_right_comm k 1]

/-- With none open, one that closes is too much at once. -/
theorem overcloses_zero_rightParen : Overcloses 0 (.rightParen :: ts) :=
  overcloses_cons.mpr ⟨[], List.nil_prefix, by simp⟩

/-- A balanced part leaves as many parentheses open as there have been. -/
theorem Balanced.overcloses_append (h : Balanced ts) :
    Overcloses k (ts ++ us) ↔ Overcloses k us := by
  induction h generalizing k us with
  | nil => exact Iff.rfl
  | number v _ ih => rw [List.cons_append, overcloses_number, ih]
  | operator op _ ih => rw [List.cons_append, overcloses_operator, ih]
  | group _ _ ihin ih =>
      rw [List.cons_append, List.cons_append, List.append_assoc, List.cons_append,
        overcloses_leftParen, ihin, overcloses_rightParen, ih]

theorem Balanced.count_eq (h : Balanced ts) : ts.count .rightParen = ts.count .leftParen := by
  induction h with
  | nil => rfl
  | number v _ ih => simpa using ih
  | operator op _ ih => simpa using ih
  | group _ _ ihin ih => simp [ihin, ih]; omega

/-- A sequence fails at a parenthesis that closes nothing, or at its end if one stays open, and
comes out otherwise. -/
theorem convertFrom_verdict (stack : List Waiting) (ts : List Token) :
    let k := stack.count .leftParen
    (convertFrom stack ts = .error .unexpectedClose ∧ Overcloses k ts) ∨
      (convertFrom stack ts = .error .unclosedOpen ∧ ¬ Overcloses k ts ∧
        ts.count .rightParen < k + ts.count .leftParen) ∨
      ((∃ out, convertFrom stack ts = .ok out) ∧ ¬ Overcloses k ts ∧
        ts.count .rightParen = k + ts.count .leftParen) := by
  induction ts generalizing stack with
  | nil =>
      by_cases hall : ∀ w ∈ stack, w.isOperator = true
      · refine .inr (.inr ⟨⟨_, convertFrom_nil_of_operators hall⟩, not_overcloses_nil, ?_⟩)
        simp [count_leftParen_of_operators hall]
      · refine .inr (.inl ⟨?_, not_overcloses_nil, ?_⟩)
        · rw [convertFrom, if_neg (by rwa [List.all_eq_true])]
        · have hmem : Waiting.leftParen ∈ stack := by
            by_contra hnot
            refine hall fun w hw => ?_
            cases w with
            | operator op => rfl
            | leftParen => exact absurd hw hnot
          simpa using List.count_pos_iff.mpr hmem
  | cons t ts ih =>
      cases t with
      | number v =>
          simp only [convertFrom_number, overcloses_number, List.count_cons_of_ne,
            ne_eq, reduceCtorEq, not_false_eq_true, Except.map_eq_error_iff, Except.map_eq_ok_iff]
          simpa using ih stack
      | operator op =>
          obtain ⟨ws, below, rfl, hws, hbelow⟩ := exists_split_operator op stack
          have hcount : (ws ++ below).count .leftParen =
              (Waiting.operator op :: below).count .leftParen := by
            simp [count_leftParen_of_operators fun w hw =>
              Waiting.isOperator_of_yieldsTo (hws w hw)]
          simp only [convertFrom_operator op ts hws hbelow, overcloses_operator, hcount,
            Except.map_eq_error_iff, Except.map_eq_ok_iff]
          simpa using ih (.operator op :: below)
      | leftParen =>
          simp only [convertFrom_leftParen, overcloses_leftParen]
          have := ih (.leftParen :: stack)
          simp only [List.count_cons_self, List.count_cons_of_ne, ne_eq, reduceCtorEq,
            not_false_eq_true, Nat.add_assoc, Nat.add_comm 1] at this ⊢
          exact this
      | rightParen =>
          by_cases hall : ∀ w ∈ stack, w.isOperator = true
          · refine .inl ⟨?_, ?_⟩
            · rw [convertFrom, List.dropWhile_eq_nil_iff.mpr hall]
            · rw [count_leftParen_of_operators hall]
              exact overcloses_zero_rightParen
          · -- the last parenthesis that waits is closed, and what waits below it stays
            obtain ⟨ws, below, rfl, hws⟩ := exists_split_leftParen hall
            have hcount : (ws ++ .leftParen :: below).count .leftParen =
                below.count .leftParen + 1 := by
              simp [count_leftParen_of_operators hws]
            simp only [convertFrom_rightParen below ts hws, hcount, overcloses_rightParen,
              Except.map_eq_error_iff, Except.map_eq_ok_iff]
            have := ih below
            simp only [List.count_cons_self, List.count_cons_of_ne, ne_eq, reduceCtorEq,
              not_false_eq_true] at this ⊢
            rcases this with ⟨h, hover⟩ | ⟨h, hover, hlt⟩ | ⟨⟨out, h⟩, hover, heq⟩
            · exact .inl ⟨h, hover⟩
            · exact .inr (.inl ⟨h, hover, by omega⟩)
            · exact .inr (.inr ⟨⟨_, out, h, rfl⟩, hover, by omega⟩)

/-- Balanced tokens close nothing that is not open. -/
theorem Balanced.not_overcloses (h : Balanced ts) : ¬ Overcloses 0 ts := by
  have happend : Overcloses 0 (ts ++ []) ↔ Overcloses 0 [] := h.overcloses_append
  rw [List.append_nil] at happend
  exact mt happend.mp not_overcloses_nil

/-- The conversion fails on tokens that are not balanced, and tells by its message whether they
close too much or too little; it gives a postfix order to all others. -/
theorem ofInfix_verdict (ts : List Token) :
    (ofInfix ts = .error .unexpectedClose ∧ ¬ Balanced ts ∧ Overcloses 0 ts) ∨
      (ofInfix ts = .error .unclosedOpen ∧ ¬ Balanced ts ∧ ¬ Overcloses 0 ts) ∨
      ((∃ out, ofInfix ts = .ok out) ∧ Balanced ts ∧ ¬ Overcloses 0 ts) := by
  rcases convertFrom_verdict [] ts with ⟨h, hover⟩ | ⟨h, hover, hlt⟩ | ⟨⟨out, h⟩, hover, -⟩
  · exact .inl ⟨h, fun hbalanced => hbalanced.not_overcloses hover, hover⟩
  · refine .inr (.inl ⟨h, fun hbalanced => ?_, hover⟩)
    rw [hbalanced.count_eq, List.count_nil, Nat.zero_add] at hlt
    exact lt_irrefl _ hlt
  · exact .inr (.inr ⟨⟨out, h⟩, balanced_of_ofInfix h, hover⟩)

end Abacus.Postfix
