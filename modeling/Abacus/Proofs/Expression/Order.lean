import Mathlib.Data.List.TakeWhile
import Abacus.Proofs.Expression.Evaluation

/-!
# Abacus — Expression — Putting into postfix order

What one token does to the operators that wait (`convertFrom_operator`, `convertFrom_rightParen`
and its converse), and from it what becomes of a whole sequence.

* `convertFrom_grouped`: an expression that groups as a tree comes out as the tree's post-order,
  whatever waits below it and whatever follows that completes its operators.
* `convertFrom_frame`: what stands between parentheses comes out as it would alone.
* `convertFrom_append`: what comes out of the first part of a sequence is the same whatever follows.
* `convertFrom_perm`: no number or operator is lost, and no parenthesis stays.
* `balanced_of_ofInfix`: only balanced sequences have a postfix order.
-/

namespace Abacus.Postfix

namespace Waiting

/-- A parenthesis yields to no operator. -/
theorem isOperator_of_yieldsTo {op : OperatorToken} {w : Waiting} (h : w.yieldsTo op = true) :
    w.isOperator = true := by
  cases w with
  | operator top => rfl
  | leftParen => cases h

theorem isParen_token_of_isOperator {w : Waiting} (h : w.isOperator = true) :
    w.token.isParen = false := by
  cases w with
  | operator top => rfl
  | leftParen => cases h

end Waiting

/-! ### One token -/

/-- At the end the operators that wait come out, the latest first. -/
theorem convertFrom_nil_of_operators {stack : List Waiting}
    (h : ∀ w ∈ stack, w.isOperator = true) :
    convertFrom stack [] = .ok (stack.map Waiting.token) := by
  rw [convertFrom, if_pos (List.all_eq_true.mpr h)]

/-- If the end is reached without a failure, no parenthesis was open. -/
theorem convertFrom_nil_eq_ok {stack : List Waiting} {out : List Token}
    (h : convertFrom stack [] = .ok out) :
    (∀ w ∈ stack, w.isOperator = true) ∧ out = stack.map Waiting.token := by
  rw [convertFrom] at h
  split at h
  · next hall => cases h; exact ⟨List.all_eq_true.mp hall, rfl⟩
  · cases h

/-- A number comes out at once. -/
theorem convertFrom_number (stack : List Waiting) (v : Binary64) (ts : List Token) :
    convertFrom stack (.number v :: ts) = (.number v :: ·) <$> convertFrom stack ts := by
  rw [convertFrom, bind_pure_comp]

/-- A parenthesis that opens waits until it is closed. -/
theorem convertFrom_leftParen (stack : List Waiting) (ts : List Token) :
    convertFrom stack (.leftParen :: ts) = convertFrom (.leftParen :: stack) ts := by
  rw [convertFrom]

/-- An operator releases the operators on top that yield to it. -/
theorem convertFrom_operator (op : OperatorToken) {ws stack : List Waiting} (ts : List Token)
    (hws : ∀ w ∈ ws, w.yieldsTo op = true) (hstack : ∀ w ∈ stack.head?, w.yieldsTo op = false) :
    convertFrom (ws ++ stack) (.operator op :: ts) =
      (ws.map Waiting.token ++ ·) <$> convertFrom (.operator op :: stack) ts := by
  rw [convertFrom, bind_pure_comp, List.takeWhile_append_of_pos hws,
    List.dropWhile_append_of_pos hws]
  cases stack with
  | nil => simp
  | cons w ws' => simp [hstack w rfl]

/-- A closing parenthesis releases the operators above the last open one. -/
theorem convertFrom_rightParen {ws : List Waiting} (stack : List Waiting) (ts : List Token)
    (hws : ∀ w ∈ ws, w.isOperator = true) :
    convertFrom (ws ++ .leftParen :: stack) (.rightParen :: ts) =
      (ws.map Waiting.token ++ ·) <$> convertFrom stack ts := by
  rw [convertFrom, List.takeWhile_append_of_pos hws, List.dropWhile_append_of_pos hws]
  simp [Waiting.isOperator]

/-- What waits is split by an incoming operator into what yields to it and the rest. -/
theorem exists_split_operator (op : OperatorToken) (stack : List Waiting) :
    ∃ ws rest, stack = ws ++ rest ∧ (∀ w ∈ ws, w.yieldsTo op = true) ∧
      ∀ w ∈ rest.head?, w.yieldsTo op = false := by
  refine ⟨stack.takeWhile (Waiting.yieldsTo op), stack.dropWhile (Waiting.yieldsTo op),
    List.takeWhile_append_dropWhile.symm, fun w hw => List.mem_takeWhile_imp hw, ?_⟩
  intro w hw
  have := List.head?_dropWhile_not (Waiting.yieldsTo op) stack
  rw [Option.mem_def.mp hw] at this
  exact this

/-- What waits, if not operators alone, has a last open parenthesis with operators above it. -/
theorem exists_split_leftParen {stack : List Waiting}
    (h : ¬ ∀ w ∈ stack, w.isOperator = true) :
    ∃ ws below, stack = ws ++ .leftParen :: below ∧ ∀ w ∈ ws, w.isOperator = true := by
  induction stack with
  | nil => exact absurd (List.forall_mem_nil _) h
  | cons w stack ih =>
      cases w with
      | leftParen => exact ⟨[], stack, rfl, List.forall_mem_nil _⟩
      | operator op =>
          obtain ⟨ws, below, rfl, hws⟩ := ih fun hall => h (List.forall_mem_cons.mpr ⟨rfl, hall⟩)
          exact ⟨.operator op :: ws, below, rfl, List.forall_mem_cons.mpr ⟨rfl, hws⟩⟩

/-- A closing parenthesis that is taken finds an open one below operators alone. -/
theorem exists_split_rightParen {stack : List Waiting} {ts out : List Token}
    (h : convertFrom stack (.rightParen :: ts) = .ok out) :
    ∃ ws rest, stack = ws ++ .leftParen :: rest ∧ ∀ w ∈ ws, w.isOperator = true := by
  refine exists_split_leftParen fun hall => ?_
  rw [convertFrom, List.dropWhile_eq_nil_iff.mpr hall] at h
  cases h

/-! ### Expressions that group as a tree -/

/-- `Grouped ts ops t`: the tokens `ts` have the operators `ops` outside parentheses and group as
the tree `t`.  At each node the operators on the left yield to the node's own, and it yields to
none of those on the right. -/
inductive Grouped : List Token → List OperatorToken → Tree OperatorToken → Prop where
  | number (v : Binary64) : Grouped [.number v] [] (.number v)
  | group {ts : List Token} {ops : List OperatorToken} {t : Tree OperatorToken}
      (h : Grouped ts ops t) : Grouped (.leftParen :: ts ++ [.rightParen]) [] t
  | node {ts us : List Token} {ps qs : List OperatorToken} {l r : Tree OperatorToken}
      (op : OperatorToken) (hl : Grouped ts ps l) (hr : Grouped us qs r)
      (hps : ∀ p ∈ ps, Waiting.yieldsTo op (.operator p) = true)
      (hqs : ∀ q ∈ qs, Waiting.yieldsTo q (.operator op) = false) :
      Grouped (ts ++ .operator op :: us) (ps ++ op :: qs) (.node op l r)

/-- Whether the rest of a sequence completes an operator that waits: it ends, closes a parenthesis
or goes on with an operator to which the waiting one yields. -/
def Completes (op : OperatorToken) : List Token → Prop
  | []                      => True
  | .rightParen :: _        => True
  | .operator incoming :: _ => Waiting.yieldsTo incoming (.operator op) = true
  | _                       => False

/-- An operator that the rest completes comes out first. -/
theorem convertFrom_of_completes {op : OperatorToken} {rest : List Token}
    (h : Completes op rest) (stack : List Waiting) :
    convertFrom (.operator op :: stack) rest = (.operator op :: ·) <$> convertFrom stack rest := by
  cases rest with
  | nil =>
      by_cases hall : stack.all Waiting.isOperator = true
      · simp [convertFrom, hall, Waiting.isOperator, Waiting.token]
      · simp [convertFrom, hall, Waiting.isOperator]
  | cons t ts =>
      cases t with
      | number v => cases h
      | leftParen => cases h
      | rightParen =>
          rw [convertFrom, convertFrom, List.dropWhile_cons_of_pos rfl,
            List.takeWhile_cons_of_pos rfl]
          cases stack.dropWhile Waiting.isOperator with
          | nil => rfl
          | cons w ws => simp [Waiting.token]
      | operator incoming =>
          rw [convertFrom, convertFrom, List.dropWhile_cons_of_pos h, List.takeWhile_cons_of_pos h]
          simp [Waiting.token]

/-- The post-order of the tree comes out, for whatever waits and does not yield to the operators
of the expression, and whatever follows and completes them. -/
theorem convertFrom_grouped {ts : List Token} {ops : List OperatorToken}
    {t : Tree OperatorToken} (h : Grouped ts ops t) {stack : List Waiting} {rest : List Token}
    (hstack : ∀ op ∈ ops, ∀ w ∈ stack.head?, w.yieldsTo op = false)
    (hrest : ∀ op ∈ ops, Completes op rest) :
    convertFrom stack (ts ++ rest) = (t.postOrder ++ ·) <$> convertFrom stack rest := by
  induction h generalizing stack rest with
  | number v => rw [List.singleton_append, convertFrom_number]; rfl
  | @group ts ops t _ ih =>
      -- no operator passes the open parenthesis, and the closing one completes them all
      have hin : convertFrom (.leftParen :: stack) (ts ++ .rightParen :: rest) =
          (t.postOrder ++ ·) <$> convertFrom (.leftParen :: stack) (.rightParen :: rest) :=
        ih (fun op _ w hw => by cases hw; rfl) (fun op _ => trivial)
      rw [List.cons_append, List.cons_append, List.append_assoc, List.singleton_append,
        convertFrom_leftParen, hin, ← List.nil_append (Waiting.leftParen :: stack),
        convertFrom_rightParen stack rest (by simp)]
      simp
  | @node ts us ps qs l r op _ _ hps hqs ihl ihr =>
      -- the node's operator completes those on its left, and waits below those on its right
      have hleft : convertFrom stack (ts ++ .operator op :: (us ++ rest)) =
          (l.postOrder ++ ·) <$> convertFrom stack (.operator op :: (us ++ rest)) :=
        ihl (fun p hp => hstack p (by simp [hp])) hps
      have hop : convertFrom ([] ++ stack) (.operator op :: (us ++ rest)) =
          ([] ++ ·) <$> convertFrom (.operator op :: stack) (us ++ rest) :=
        convertFrom_operator op (us ++ rest) (by simp) (hstack op (by simp))
      have hright : convertFrom (.operator op :: stack) (us ++ rest) =
          (r.postOrder ++ ·) <$> convertFrom (.operator op :: stack) rest :=
        ihr (fun q hq w hw => by cases hw; exact hqs q hq) (fun q hq => hrest q (by simp [hq]))
      rw [List.nil_append] at hop
      rw [List.append_assoc, List.cons_append, hleft, hop, hright,
        convertFrom_of_completes (hrest op (by simp))]
      simp [Tree.postOrder]

/-- A sequence that groups as a tree is converted into the post-order of the tree. -/
theorem ofInfix_grouped {ts : List Token} {ops : List OperatorToken} {t : Tree OperatorToken}
    (h : Grouped ts ops t) : ofInfix ts = .ok t.postOrder := by
  have hall : convertFrom [] (ts ++ []) = (t.postOrder ++ ·) <$> convertFrom [] [] :=
    convertFrom_grouped h (by simp) (fun _ _ => trivial)
  rw [List.append_nil] at hall
  rw [ofInfix, hall, convertFrom_nil_of_operators (by simp)]
  simp

/-- A sequence that groups as a tree has the tree's value. -/
theorem valueOfInfix_grouped {table : OperatorTable} {ts : List Token} {ops : List OperatorToken}
    {t : Tree OperatorToken} (h : Grouped ts ops t) :
    valueOfInfix table ts = t.eval table := by
  rw [valueOfInfix, ofInfix_grouped h, Except.mapError_ok, Except.ok_bind, value_postOrder]

/-! ### Between parentheses -/

/-- What stands between parentheses comes out as it would alone, and leaves what waits below the
opening one as it was. -/
theorem convertFrom_frame {stack : List Waiting} {ts out : List Token}
    (h : convertFrom stack ts = .ok out) (base : List Waiting) (rest : List Token) :
    convertFrom (stack ++ .leftParen :: base) (ts ++ .rightParen :: rest) =
      (out ++ ·) <$> convertFrom base rest := by
  induction ts generalizing stack out with
  | nil =>
      obtain ⟨hall, rfl⟩ := convertFrom_nil_eq_ok h
      exact convertFrom_rightParen base rest hall
  | cons t ts ih =>
      cases t with
      | number v =>
          rw [convertFrom_number, Except.map_eq_ok_iff] at h
          obtain ⟨out', h, rfl⟩ := h
          rw [List.cons_append, convertFrom_number, ih h]
          simp
      | operator op =>
          obtain ⟨ws, below, rfl, hws, hbelow⟩ := exists_split_operator op stack
          rw [convertFrom_operator op ts hws hbelow, Except.map_eq_ok_iff] at h
          obtain ⟨out', h, rfl⟩ := h
          -- whatever the operator releases, the open parenthesis stops it at the latest
          have hbelow' : ∀ w ∈ (below ++ .leftParen :: base).head?, w.yieldsTo op = false := by
            cases below with
            | nil => intro w hw; cases hw; rfl
            | cons w' below => exact hbelow
          have := ih h
          rw [List.cons_append] at this
          rw [List.append_assoc, List.cons_append, convertFrom_operator op _ hws hbelow', this]
          simp
      | leftParen =>
          rw [convertFrom_leftParen] at h
          rw [List.cons_append, convertFrom_leftParen]
          exact ih h
      | rightParen =>
          obtain ⟨ws, below, rfl, hws⟩ := exists_split_rightParen h
          rw [convertFrom_rightParen below ts hws, Except.map_eq_ok_iff] at h
          obtain ⟨out', h, rfl⟩ := h
          rw [List.append_assoc, List.cons_append, List.cons_append,
            convertFrom_rightParen _ _ hws, ih h]
          simp

/-- A sequence fails whatever follows it, or comes out and leaves operators and parentheses to
wait, whatever follows. -/
theorem convertFrom_append (stack : List Waiting) (ts : List Token) :
    (∃ f, ∀ rest, convertFrom stack (ts ++ rest) = .error f) ∨
      ∃ out waiting, ∀ rest,
        convertFrom stack (ts ++ rest) = (out ++ ·) <$> convertFrom waiting rest := by
  induction ts generalizing stack with
  | nil => exact .inr ⟨[], stack, fun rest => by simp⟩
  | cons t ts ih =>
      cases t with
      | number v =>
          rcases ih stack with ⟨f, hf⟩ | ⟨out, waiting, hout⟩
          · exact .inl ⟨f, fun rest => by rw [List.cons_append, convertFrom_number, hf]; rfl⟩
          · refine .inr ⟨.number v :: out, waiting, fun rest => ?_⟩
            rw [List.cons_append, convertFrom_number, hout]
            simp
      | operator op =>
          obtain ⟨ws, below, rfl, hws, hbelow⟩ := exists_split_operator op stack
          rcases ih (.operator op :: below) with ⟨f, hf⟩ | ⟨out, waiting, hout⟩
          · refine .inl ⟨f, fun rest => ?_⟩
            rw [List.cons_append, convertFrom_operator op _ hws hbelow, hf]
            rfl
          · refine .inr ⟨ws.map Waiting.token ++ out, waiting, fun rest => ?_⟩
            rw [List.cons_append, convertFrom_operator op _ hws hbelow, hout]
            simp
      | leftParen => exact ih (.leftParen :: stack)
      | rightParen =>
          cases hd : stack.dropWhile Waiting.isOperator with
          | nil =>
              exact .inl ⟨.unexpectedClose, fun rest => by rw [List.cons_append, convertFrom, hd]⟩
          | cons w below =>
              rcases ih below with ⟨f, hf⟩ | ⟨out, waiting, hout⟩
              · refine .inl ⟨f, fun rest => ?_⟩
                rw [List.cons_append, convertFrom, hd]
                simp only [hf, Except.error_bind]
              · refine .inr ⟨(stack.takeWhile Waiting.isOperator).map Waiting.token ++ out,
                  waiting, fun rest => ?_⟩
                rw [List.cons_append, convertFrom, hd]
                simp only [hout, bind_pure_comp]
                simp

/-! ### What comes out -/

theorem withoutParens_waiting {ws : List Waiting} (h : ∀ w ∈ ws, w.isOperator = true) :
    Token.withoutParens (ws.map Waiting.token) = ws.map Waiting.token := by
  refine List.filter_eq_self.mpr fun t ht => ?_
  obtain ⟨w, hw, rfl⟩ := List.mem_map.mp ht
  rw [Waiting.isParen_token_of_isOperator (h w hw)]
  rfl

/-- The numbers and operators come out, those that wait with them, and no parenthesis. -/
theorem convertFrom_perm {stack : List Waiting} {ts out : List Token}
    (h : convertFrom stack ts = .ok out) :
    out.Perm (Token.withoutParens (ts ++ stack.map Waiting.token)) := by
  induction ts generalizing stack out with
  | nil =>
      obtain ⟨hall, rfl⟩ := convertFrom_nil_eq_ok h
      rw [List.nil_append, withoutParens_waiting hall]
  | cons t ts ih =>
      cases t with
      | number v =>
          rw [convertFrom_number, Except.map_eq_ok_iff] at h
          obtain ⟨out', h, rfl⟩ := h
          exact (ih h).cons _
      | operator op =>
          obtain ⟨ws, below, rfl, hws, hbelow⟩ := exists_split_operator op stack
          rw [convertFrom_operator op ts hws hbelow, Except.map_eq_ok_iff] at h
          obtain ⟨out', h, rfl⟩ := h
          have hwaiting := withoutParens_waiting fun w hw =>
            Waiting.isOperator_of_yieldsTo (hws w hw)
          refine ((ih h).append_left _).trans (List.perm_iff_count.mpr fun a => ?_)
          simp only [List.map_cons, List.map_append, Waiting.token, List.cons_append,
            Token.withoutParens_append, Token.withoutParens_operator, hwaiting, List.count_append,
            List.count_cons]
          omega
      | leftParen =>
          rw [convertFrom_leftParen] at h
          simpa [Waiting.token] using ih h
      | rightParen =>
          obtain ⟨ws, below, rfl, hws⟩ := exists_split_rightParen h
          rw [convertFrom_rightParen below ts hws, Except.map_eq_ok_iff] at h
          obtain ⟨out', h, rfl⟩ := h
          refine ((ih h).append_left _).trans (List.perm_iff_count.mpr fun a => ?_)
          simp only [List.map_cons, List.map_append, Waiting.token, List.cons_append,
            Token.withoutParens_append, Token.withoutParens_leftParen,
            Token.withoutParens_rightParen, withoutParens_waiting hws, List.count_append]
          omega

/-- The conversion gives the numbers and the operators back, and only these, in another order. -/
theorem ofInfix_perm {ts out : List Token} (h : ofInfix ts = .ok out) :
    out.Perm (Token.withoutParens ts) := by
  simpa using convertFrom_perm h

/-- A sequence with one value has one number more than operators. -/
theorem countP_of_run {table : OperatorTable} {ts out : List Token} {v : Binary64}
    (hout : ofInfix ts = .ok out) (hrun : run table [] out = .ok [v]) :
    ts.countP Token.isNumber = ts.countP Token.isOperator + 1 := by
  have hcount {p : Token → Bool} (hp : ∀ t, p t = true → (!t.isParen) = true) :
      out.countP p = ts.countP p := by
    rw [(ofInfix_perm hout).countP_eq, Token.withoutParens, List.countP_filter]
    refine List.countP_congr fun t _ => ?_
    simp only [Bool.and_eq_true]
    exact ⟨fun h => h.1, fun h => ⟨h, hp t h⟩⟩
  have hnum : out.countP Token.isNumber = ts.countP Token.isNumber :=
    hcount fun t ht => by cases t with
      | number v => rfl
      | operator | leftParen | rightParen => cases ht
  have hops : out.countP Token.isOperator = ts.countP Token.isOperator :=
    hcount fun t ht => by cases t with
      | operator op => rfl
      | number | leftParen | rightParen => cases ht
  have := run_length hrun
  rw [hnum, hops, List.length_singleton, List.length_nil] at this
  omega

/-! ### Balance -/

/-- Each parenthesis that opens is closed, and none closes that was not opened. -/
inductive Balanced : List Token → Prop where
  | nil : Balanced []
  | number (v : Binary64) {ts : List Token} (h : Balanced ts) : Balanced (.number v :: ts)
  | operator (op : OperatorToken) {ts : List Token} (h : Balanced ts) :
      Balanced (.operator op :: ts)
  | group {ts us : List Token} (hin : Balanced ts) (h : Balanced us) :
      Balanced (.leftParen :: ts ++ .rightParen :: us)

/-- A sequence that closes as many parentheses more as it opens. -/
def Closing : Nat → List Token → Prop
  | 0, ts     => Balanced ts
  | k + 1, ts => ∃ us vs, ts = us ++ .rightParen :: vs ∧ Balanced us ∧ Closing k vs

theorem Closing.number (v : Binary64) {k : Nat} {ts : List Token} (h : Closing k ts) :
    Closing k (.number v :: ts) := by
  cases k with
  | zero => exact Balanced.number v h
  | succ k =>
      obtain ⟨us, vs, rfl, hus, hvs⟩ := h
      exact ⟨.number v :: us, vs, rfl, .number v hus, hvs⟩

theorem Closing.operator (op : OperatorToken) {k : Nat} {ts : List Token} (h : Closing k ts) :
    Closing k (.operator op :: ts) := by
  cases k with
  | zero => exact Balanced.operator op h
  | succ k =>
      obtain ⟨us, vs, rfl, hus, hvs⟩ := h
      exact ⟨.operator op :: us, vs, rfl, .operator op hus, hvs⟩

/-- A parenthesis at the front pairs with the first of those that close more than they open. -/
theorem Closing.leftParen {k : Nat} {ts : List Token} (h : Closing (k + 1) ts) :
    Closing k (.leftParen :: ts) := by
  obtain ⟨us, vs, rfl, hus, hvs⟩ := h
  cases k with
  | zero => exact .group hus hvs
  | succ k =>
      obtain ⟨us', vs', rfl, hus', hvs'⟩ := hvs
      exact ⟨.leftParen :: us ++ .rightParen :: us', vs', by simp, .group hus hus', hvs'⟩

theorem count_leftParen_of_operators {ws : List Waiting}
    (h : ∀ w ∈ ws, w.isOperator = true) : ws.count .leftParen = 0 :=
  List.count_eq_zero.mpr fun hmem => by cases h _ hmem

/-- A sequence with a postfix order closes the parentheses that wait. -/
theorem closing_of_convertFrom {stack : List Waiting} {ts out : List Token}
    (h : convertFrom stack ts = .ok out) : Closing (stack.count .leftParen) ts := by
  induction ts generalizing stack out with
  | nil =>
      rw [count_leftParen_of_operators (convertFrom_nil_eq_ok h).1]
      exact .nil
  | cons t ts ih =>
      cases t with
      | number v =>
          rw [convertFrom_number, Except.map_eq_ok_iff] at h
          obtain ⟨out', h, -⟩ := h
          exact (ih h).number v
      | operator op =>
          obtain ⟨ws, below, rfl, hws, hbelow⟩ := exists_split_operator op stack
          rw [convertFrom_operator op ts hws hbelow, Except.map_eq_ok_iff] at h
          obtain ⟨out', h, -⟩ := h
          have := ih h
          rw [List.count_append, count_leftParen_of_operators fun w hw =>
            Waiting.isOperator_of_yieldsTo (hws w hw), Nat.zero_add]
          rw [List.count_cons_of_ne (by simp)] at this
          exact this.operator op
      | leftParen =>
          rw [convertFrom_leftParen] at h
          have := ih h
          rw [List.count_cons_self] at this
          exact this.leftParen
      | rightParen =>
          obtain ⟨ws, below, rfl, hws⟩ := exists_split_rightParen h
          rw [convertFrom_rightParen below ts hws, Except.map_eq_ok_iff] at h
          obtain ⟨out', h, -⟩ := h
          rw [List.count_append, count_leftParen_of_operators hws, Nat.zero_add,
            List.count_cons_self]
          exact ⟨[], ts, rfl, .nil, ih h⟩

/-- Only balanced tokens are converted. -/
theorem balanced_of_ofInfix {ts out : List Token} (h : ofInfix ts = .ok out) : Balanced ts :=
  closing_of_convertFrom h

end Abacus.Postfix
