import Mathlib.Data.List.FinRange
import Mathlib.Data.List.Pairwise
import Abacus.Proofs.Expression.Balance

/-!
# Abacus — Expression — Where tokens come out

Where a token comes out hangs on its place and on what kinds of tokens the others are, not on the
numbers and symbols in them.  `Arranges` follows the places of tokens through the conversion; the
tokens come out in the order of their places (`Arranges.convertFrom_eq`), and tokens like them in
the same order (`Arranges.congr`).  `IsPostfixOrder` gathers what holds of this order, for tokens
that stand in any order at all.

* `Arranges.perm`: every place comes out but those of parentheses.
* `Arranges.number_last`: a number comes out behind places that stand before it alone.
* `Arranges.exists_block`: the places between two parentheses that match come out side by side.
-/

namespace Abacus

namespace Token

/-- Tokens of one kind, operators among them of one precedence and grouping. -/
inductive Alike : Token → Token → Prop where
  | number (v w : Binary64) : Alike (.number v) (.number w)
  | operator {p q : OperatorToken} (hprecedence : p.precedence = q.precedence)
      (hgrouping : p.associativity = q.associativity) : Alike (.operator p) (.operator q)
  | leftParen : Alike .leftParen .leftParen
  | rightParen : Alike .rightParen .rightParen

/-- How a token waits that has been put aside. -/
def waiting : Token → Postfix.Waiting
  | .operator op                         => .operator op
  | .number _ | .leftParen | .rightParen => .leftParen

theorem isOperator_waiting (t : Token) : t.waiting.isOperator = t.isOperator := by
  cases t <;> rfl

/-- Whatever is no operator waits as a parenthesis does, and keeps those below it waiting. -/
theorem waiting_of_not_isOperator {t : Token} (h : t.isOperator = false) :
    t.waiting = .leftParen := by
  cases t with
  | operator op => cases h
  | number | leftParen | rightParen => rfl

/-- An operator that has waited comes out as it went in. -/
theorem token_waiting {t : Token} (h : t.isOperator = true) : t.waiting.token = t := by
  cases t with
  | operator op => rfl
  | number | leftParen | rightParen => cases h

@[simp] theorem waiting_operator (op : OperatorToken) : waiting (.operator op) = .operator op := rfl

@[simp] theorem waiting_leftParen : waiting .leftParen = .leftParen := rfl

theorem Alike.of_number {v : Binary64} {t : Token} (h : Alike (.number v) t) :
    ∃ w, t = .number w := by
  cases h; exact ⟨_, rfl⟩

theorem Alike.of_operator {op : OperatorToken} {t : Token} (h : Alike (.operator op) t) :
    ∃ op', t = .operator op' := by
  cases h; exact ⟨_, rfl⟩

theorem Alike.of_leftParen {t : Token} (h : Alike .leftParen t) : t = .leftParen := by
  cases h; rfl

theorem Alike.of_rightParen {t : Token} (h : Alike .rightParen t) : t = .rightParen := by
  cases h; rfl

theorem Alike.isOperator_eq {t u : Token} (h : t.Alike u) : u.isOperator = t.isOperator := by
  cases h <;> rfl

/-- Only precedence and grouping decide which operator yields, so like tokens yield alike. -/
theorem Alike.yieldsTo_eq {t u : Token} {p q : OperatorToken} (h : t.Alike u)
    (hop : Alike (.operator p) (.operator q)) :
    u.waiting.yieldsTo q = t.waiting.yieldsTo p := by
  cases hop with
  | operator hp hg =>
      cases h with
      | number | leftParen | rightParen => rfl
      | operator hp' hg' => simp only [waiting, Postfix.Waiting.yieldsTo, hp, hg, hp']

theorem isOperator_of_yieldsTo {t : Token} {op : OperatorToken}
    (h : t.waiting.yieldsTo op = true) : t.isOperator = true := by
  rw [← isOperator_waiting]
  exact Postfix.Waiting.isOperator_of_yieldsTo h

theorem isNumber_of_isOperator {t : Token} (h : t.isOperator = true) : t.isNumber = false := by
  cases t with
  | operator op => rfl
  | number | leftParen | rightParen => cases h

theorem isParen_of_isOperator {t : Token} (h : t.isOperator = true) : t.isParen = false := by
  cases t with
  | operator op => rfl
  | number | leftParen | rightParen => cases h

theorem isParen_of_isNumber {t : Token} (h : t.isNumber = true) : t.isParen = false := by
  cases t with
  | number v => rfl
  | operator | leftParen | rightParen => cases h

end Token

namespace Postfix

/-! ### The places of tokens -/

section Places
variable {α : Type} {f g : α → Token} {ws as order : List α}

/-- `Arranges f ws as order`: the tokens at `as` are still to come, those at `ws` wait, the latest
first, and together they come out in the order `order`.  `f` tells which token is where. -/
inductive Arranges (f : α → Token) : List α → List α → List α → Prop where
  | nil {ws : List α} (hws : ∀ w ∈ ws, (f w).isOperator = true) : Arranges f ws [] ws
  | number {ws as order : List α} {a : α} {v : Binary64} (ha : f a = .number v)
      (h : Arranges f ws as order) : Arranges f ws (a :: as) (a :: order)
  | operator {ws as order : List α} {a : α} {op : OperatorToken} (ha : f a = .operator op)
      (h : Arranges f (a :: ws.dropWhile fun w => (f w).waiting.yieldsTo op) as order) :
      Arranges f ws (a :: as) ((ws.takeWhile fun w => (f w).waiting.yieldsTo op) ++ order)
  | leftParen {ws as order : List α} {a : α} (ha : f a = .leftParen)
      (h : Arranges f (a :: ws) as order) : Arranges f ws (a :: as) order
  | rightParen {ws below as order : List α} {p a : α} (hp : f p = .leftParen)
      (ha : f a = .rightParen) (hws : (ws.dropWhile fun w => (f w).isOperator) = p :: below)
      (h : Arranges f below as order) :
      Arranges f ws (a :: as) ((ws.takeWhile fun w => (f w).isOperator) ++ order)

theorem map_token_waiting (h : ∀ w ∈ ws, (f w).isOperator = true) :
    (ws.map fun w => (f w).waiting).map Waiting.token = ws.map f := by
  rw [List.map_map]
  exact List.map_congr_left fun w hw => Token.token_waiting (h w hw)

theorem isOperator_of_mem_takeWhile_yieldsTo {op : OperatorToken} :
    ∀ w ∈ ws.takeWhile fun w => (f w).waiting.yieldsTo op, (f w).isOperator = true :=
  fun _ hw => Token.isOperator_of_yieldsTo
    (List.mem_takeWhile_imp (p := fun w => (f w).waiting.yieldsTo op) hw)

theorem isOperator_of_mem_takeWhile :
    ∀ w ∈ ws.takeWhile fun w => (f w).isOperator, (f w).isOperator = true :=
  fun _ hw => List.mem_takeWhile_imp (p := fun w => (f w).isOperator) hw

/-- Tokens that are like the ones here have their places in the same order. -/
theorem Arranges.congr (h : Arranges f ws as order) (hg : ∀ a, (f a).Alike (g a)) :
    Arranges g ws as order := by
  have hoperator : (fun w => (f w).isOperator) = fun w => (g w).isOperator :=
    funext fun w => (hg w).isOperator_eq.symm
  induction h with
  | nil hws => exact .nil fun w hw => (hg w).isOperator_eq.trans (hws w hw)
  | @number _ _ _ a _ ha _ ih =>
      obtain ⟨w, hw⟩ := (ha ▸ hg a).of_number
      exact .number hw ih
  | @operator _ _ _ a op ha _ ih =>
      have hop : Token.Alike (.operator op) (g a) := ha ▸ hg a
      obtain ⟨op', hop'⟩ := hop.of_operator
      rw [hop'] at hop
      have hyields : (fun w => (f w).waiting.yieldsTo op) = fun w => (g w).waiting.yieldsTo op' :=
        funext fun w => ((hg w).yieldsTo_eq hop).symm
      rw [hyields] at ih ⊢
      exact .operator hop' ih
  | @leftParen _ _ _ a ha _ ih => exact .leftParen (ha ▸ hg a).of_leftParen ih
  | @rightParen _ _ _ _ p a hp ha hws _ ih =>
      rw [hoperator] at hws ⊢
      exact .rightParen (hp ▸ hg p).of_leftParen (ha ▸ hg a).of_rightParen hws ih

/-- The tokens come out in the order of their places. -/
theorem Arranges.convertFrom_eq (h : Arranges f ws as order) :
    convertFrom (ws.map fun w => (f w).waiting) (as.map f) = .ok (order.map f) := by
  induction h with
  | nil hws =>
      rw [List.map_nil, convertFrom_nil_of_operators, map_token_waiting hws]
      exact List.forall_mem_map.mpr fun w hw => (Token.isOperator_waiting _).trans (hws w hw)
  | number ha _ ih => rw [List.map_cons, ha, convertFrom_number, ih, List.map_cons, ha]; rfl
  | @operator ws as order a op ha _ ih =>
      rw [List.map_cons, ha, Token.waiting_operator] at ih
      rw [List.map_cons, ha, convertFrom, List.dropWhile_map, List.takeWhile_map]
      simp only [Function.comp_def, ih, Except.ok_bind, List.map_append,
        map_token_waiting isOperator_of_mem_takeWhile_yieldsTo]
      rfl
  | leftParen ha _ ih =>
      rw [List.map_cons, ha, Token.waiting_leftParen] at ih
      rw [List.map_cons, ha, convertFrom_leftParen, ih]
  | @rightParen ws below as order p a hp ha hws _ ih =>
      rw [List.map_cons, ha, convertFrom, List.dropWhile_map, List.takeWhile_map]
      simp only [Function.comp_def, Token.isOperator_waiting, hws, List.map_cons, ih,
        Except.ok_bind, List.map_append, map_token_waiting isOperator_of_mem_takeWhile]
      rfl

/-- What has a postfix order has its places in an order. -/
theorem exists_arranges {out : List Token} (hws : ∀ w ∈ ws, (f w).waiting.token = f w)
    (h : convertFrom (ws.map fun w => (f w).waiting) (as.map f) = .ok out) :
    ∃ order, Arranges f ws as order := by
  induction as generalizing ws out with
  | nil =>
      refine ⟨ws, .nil fun w hw => ?_⟩
      rw [← Token.isOperator_waiting]
      exact (convertFrom_nil_eq_ok h).1 _ (List.mem_map_of_mem hw)
  | cons a as ih =>
      rw [List.map_cons] at h
      cases ha : f a with
      | number v =>
          rw [ha, convertFrom_number, Except.map_eq_ok_iff] at h
          obtain ⟨out', h, -⟩ := h
          obtain ⟨order, horder⟩ := ih hws h
          exact ⟨_, .number ha horder⟩
      | operator op =>
          rw [ha, convertFrom, bind_pure_comp, Except.map_eq_ok_iff, List.dropWhile_map] at h
          obtain ⟨out', h, -⟩ := h
          have hstack : ∀ w ∈ a :: ws.dropWhile fun w => (f w).waiting.yieldsTo op,
              (f w).waiting.token = f w := by
            refine List.forall_mem_cons.mpr ⟨by rw [ha]; rfl, fun w hw => hws w ?_⟩
            exact (List.dropWhile_sublist _).subset hw
          obtain ⟨order, horder⟩ := ih hstack (by rwa [List.map_cons, ha])
          exact ⟨_, .operator ha horder⟩
      | leftParen =>
          rw [ha, convertFrom_leftParen] at h
          obtain ⟨order, horder⟩ := ih (List.forall_mem_cons.mpr ⟨by rw [ha]; rfl, hws⟩)
            (by rwa [List.map_cons, ha])
          exact ⟨_, .leftParen ha horder⟩
      | rightParen =>
          rw [ha, convertFrom, List.dropWhile_map] at h
          simp only [Function.comp_def, Token.isOperator_waiting] at h
          cases hd : ws.dropWhile fun w => (f w).isOperator with
          | nil => rw [hd] at h; cases h
          | cons p below =>
              rw [hd] at h
              simp only [List.map_cons, bind_pure_comp, Except.map_eq_ok_iff] at h
              obtain ⟨out', h, -⟩ := h
              have hsub : p :: below ⊆ ws := hd ▸ (List.dropWhile_sublist _).subset
              obtain ⟨order, horder⟩ := ih (fun w hw => hws w (hsub (.tail _ hw))) h
              refine ⟨_, .rightParen ?_ ha hd horder⟩
              -- what is no operator waits as an open parenthesis
              have hp := List.head?_dropWhile_not (fun w => (f w).isOperator) ws
              rw [hd] at hp
              rw [← hws p (hsub (.head _)), Token.waiting_of_not_isOperator (by simpa using hp)]
              rfl

/-- Every place comes out but those of parentheses. -/
theorem Arranges.perm (h : Arranges f ws as order) :
    order.Perm ((ws ++ as).filter fun a => !(f a).isParen) := by
  have hkept {ws : List α} (hws : ∀ w ∈ ws, (f w).isOperator = true) :
      (ws.filter fun a => !(f a).isParen) = ws :=
    List.filter_eq_self.mpr fun w hw => by rw [Token.isParen_of_isOperator (hws w hw)]; rfl
  induction h with
  | nil hws => rw [List.append_nil, hkept hws]
  | @number ws as order a v ha _ ih =>
      have hmiddle : ((ws ++ a :: as).filter fun a => !(f a).isParen).Perm
          ((a :: (ws ++ as)).filter fun a => !(f a).isParen) := List.perm_middle.filter _
      rw [List.filter_cons_of_pos (by rw [ha]; rfl)] at hmiddle
      exact (ih.cons a).trans hmiddle.symm
  | @operator ws as order a op ha _ ih =>
      have htake : ((ws.takeWhile fun w => (f w).waiting.yieldsTo op).filter
          fun a => !(f a).isParen) = ws.takeWhile fun w => (f w).waiting.yieldsTo op :=
        hkept isOperator_of_mem_takeWhile_yieldsTo
      have hws : (ws.takeWhile fun w => (f w).waiting.yieldsTo op) ++
          (ws.dropWhile fun w => (f w).waiting.yieldsTo op) = ws := List.takeWhile_append_dropWhile
      refine ((ih.trans (List.perm_middle.symm.filter _)).append_left _).trans ?_
      rw [← htake, ← List.filter_append, ← List.append_assoc, hws]
  | @leftParen ws as order a ha _ ih =>
      exact ih.trans (List.perm_middle.symm.filter _)
  | @rightParen ws below as order p a hp ha hws _ ih =>
      have hsplit := List.takeWhile_append_dropWhile (p := fun w => (f w).isOperator) (l := ws)
      have hkeep : (ws.filter fun a => !(f a).isParen) =
          (ws.takeWhile fun w => (f w).isOperator) ++ below.filter fun a => !(f a).isParen := by
        rw [hws] at hsplit
        conv_lhs => rw [← hsplit]
        rw [List.filter_append, hkept isOperator_of_mem_takeWhile,
          List.filter_cons_of_neg (by simp [hp, Token.isParen])]
      rw [List.filter_append, hkeep, List.filter_cons_of_neg (by simp [ha, Token.isParen]),
        List.append_assoc, ← List.filter_append]
      exact ih.append_left _

/-- A number that comes out was still to come: no number waits. -/
theorem Arranges.mem_of_number {b : α} (h : Arranges f ws as order)
    (hws : ∀ w ∈ ws, (f w).isNumber = false) (hb : b ∈ order) (hnumber : (f b).isNumber = true) :
    b ∈ as := by
  rcases List.mem_append.mp (List.mem_filter.mp (h.perm.mem_iff.mp hb)).1 with hmem | hmem
  · rw [hws b hmem] at hnumber
    cases hnumber
  · exact hmem

/-- A number comes out behind places that stand before it alone, as long as no number waits. -/
theorem Arranges.number_last [Preorder α] (h : Arranges f ws as order)
    (hws : ∀ w ∈ ws, (f w).isNumber = false) (hbefore : ∀ w ∈ ws, ∀ a ∈ as, w < a)
    (has : as.Pairwise (· < ·)) :
    order.Pairwise fun a b => (f b).isNumber = true → a < b := by
  -- places that wait, with what comes out when the rest has been read
  have hrelease {ws order : List α} (hws : ∀ w ∈ ws, (f w).isOperator = true)
      (hbefore : ∀ w ∈ ws, ∀ b ∈ order, (f b).isNumber = true → w < b)
      (horder : order.Pairwise fun a b => (f b).isNumber = true → a < b) :
      (ws ++ order).Pairwise fun a b => (f b).isNumber = true → a < b := by
    refine List.pairwise_append.mpr ⟨?_, horder, hbefore⟩
    refine List.pairwise_of_forall_mem_list fun a _ b hb hnumber => ?_
    rw [Token.isNumber_of_isOperator (hws b hb)] at hnumber
    cases hnumber
  induction h with
  | @nil ws hops =>
      rw [← List.append_nil ws]
      exact hrelease hops (by simp) .nil
  | @number ws as order a v ha h ih =>
      obtain ⟨hfirst, has⟩ := List.pairwise_cons.mp has
      have hrest := ih hws (fun w hw b hb => hbefore w hw b (.tail _ hb)) has
      exact List.pairwise_cons.mpr
        ⟨fun b hb hnumber => hfirst b (h.mem_of_number hws hb hnumber), hrest⟩
  | @operator ws as order a op ha h ih =>
      obtain ⟨hfirst, has⟩ := List.pairwise_cons.mp has
      have hdrop := (List.dropWhile_sublist (fun w => (f w).waiting.yieldsTo op) (l := ws)).subset
      have htake := (List.takeWhile_sublist (fun w => (f w).waiting.yieldsTo op) (l := ws)).subset
      have hstack : ∀ w ∈ a :: ws.dropWhile fun w => (f w).waiting.yieldsTo op,
          (f w).isNumber = false :=
        List.forall_mem_cons.mpr ⟨by rw [ha]; rfl, fun w hw => hws w (hdrop hw)⟩
      refine hrelease isOperator_of_mem_takeWhile_yieldsTo
        (fun w hw b hb hnumber => ?_) (ih hstack ?_ has)
      · exact hbefore w (htake hw) b (.tail _ (h.mem_of_number hstack hb hnumber))
      · exact List.forall_mem_cons.mpr
          ⟨hfirst, fun w hw b hb => hbefore w (hdrop hw) b (.tail _ hb)⟩
  | @leftParen ws as order a ha _ ih =>
      obtain ⟨hfirst, has⟩ := List.pairwise_cons.mp has
      exact ih (List.forall_mem_cons.mpr ⟨by rw [ha]; rfl, hws⟩)
        (List.forall_mem_cons.mpr ⟨hfirst, fun w hw b hb => hbefore w hw b (.tail _ hb)⟩) has
  | @rightParen ws below as order p a hp ha hsplit h ih =>
      have hbelow : below ⊆ ws := fun w hw =>
        (List.dropWhile_sublist _).subset (hsplit ▸ List.mem_cons_of_mem p hw)
      have htake := (List.takeWhile_sublist (fun w => (f w).isOperator) (l := ws)).subset
      have hnone : ∀ w ∈ below, (f w).isNumber = false := fun w hw => hws w (hbelow hw)
      refine hrelease isOperator_of_mem_takeWhile (fun w hw b hb hnumber => ?_)
        (ih hnone (fun w hw b hb => hbefore w (hbelow hw) b (.tail _ hb)) has.of_cons)
      exact hbefore w (htake hw) b (.tail _ (h.mem_of_number hnone hb hnumber))

/-! ### What stands between parentheses -/

section Split
variable {p : α → Bool} {b : α} {below : List α}

/-- What stands below the first place without `p` does not change what is taken. -/
theorem takeWhile_append_cons_of_neg (hb : p b = false) :
    (ws ++ b :: below).takeWhile p = ws.takeWhile p := by
  induction ws with
  | nil => simp [hb]
  | cons w ws ih => simp only [List.cons_append, List.takeWhile_cons, ih]

/-- Nor does what stands below it change what is dropped above it. -/
theorem dropWhile_append_cons_of_neg (hb : p b = false) :
    (ws ++ b :: below).dropWhile p = ws.dropWhile p ++ b :: below := by
  induction ws with
  | nil => simp [hb]
  | cons w ws ih =>
      simp only [List.cons_append, List.dropWhile_cons, ih]
      split <;> rfl

end Split

/-- What is balanced and stands between two parentheses comes out, with the operators that wait
above the first of them, before all that follows. -/
theorem Arranges.exists_group {ts : List Token} (hts : Balanced ts) {inner below rest : List α}
    {p q : α} (hinner : inner.map f = ts) (hp : f p = .leftParen) (hq : f q = .rightParen)
    (hws : ∀ w ∈ ws, (f w).isOperator = true)
    (h : Arranges f (ws ++ p :: below) (inner ++ q :: rest) order) :
    ∃ inside outside, order = inside ++ outside ∧ (∀ a ∈ inside, a ∈ ws ∨ a ∈ inner) ∧
      Arranges f below rest outside := by
  have hopen {ws below : List α} {p : α} (hp : f p = .leftParen) :
      ((ws ++ p :: below).takeWhile fun w => (f w).isOperator) =
          (ws.takeWhile fun w => (f w).isOperator) ∧
        ((ws ++ p :: below).dropWhile fun w => (f w).isOperator) =
          (ws.dropWhile fun w => (f w).isOperator) ++ p :: below :=
    ⟨takeWhile_append_cons_of_neg (by rw [hp]; rfl), dropWhile_append_cons_of_neg (by rw [hp]; rfl)⟩
  induction hts generalizing ws inner below rest p q order with
  | nil =>
      obtain rfl := List.map_eq_nil_iff.mp hinner
      cases h with
      | number ha | operator ha | leftParen ha => rw [hq] at ha; cases ha
      | rightParen _ _ hsplit h =>
          rw [(hopen hp).2, List.dropWhile_eq_nil_iff.mpr hws, List.nil_append,
            List.cons.injEq] at hsplit
          obtain ⟨rfl, rfl⟩ := hsplit
          rw [(hopen hp).1, List.takeWhile_eq_self_iff.mpr hws]
          exact ⟨ws, _, rfl, fun a ha => .inl ha, h⟩
  | number v _ ih =>
      obtain ⟨a, inner, rfl, ha, rfl⟩ := List.map_eq_cons_iff.mp hinner
      cases h with
      | operator ha' | leftParen ha' | rightParen _ ha' => rw [ha] at ha'; cases ha'
      | number _ h =>
          obtain ⟨inside, outside, rfl, hinside, hout⟩ := ih rfl hp hq hws h
          exact ⟨a :: inside, outside, rfl, by grind, hout⟩
  | operator op _ ih =>
      obtain ⟨a, inner, rfl, ha, rfl⟩ := List.map_eq_cons_iff.mp hinner
      cases h with
      | number ha' | leftParen ha' | rightParen _ ha' => rw [ha] at ha'; cases ha'
      | @operator _ _ _ _ op' ha' h =>
          -- the open parenthesis yields to no operator
          have hstays : (f p).waiting.yieldsTo op' = false := by rw [hp]; rfl
          rw [dropWhile_append_cons_of_neg (p := fun w => (f w).waiting.yieldsTo op') hstays,
            ← List.cons_append] at h
          have hstack : ∀ w ∈ a :: ws.dropWhile fun w => (f w).waiting.yieldsTo op',
              (f w).isOperator = true :=
            List.forall_mem_cons.mpr ⟨by rw [ha]; rfl, fun w hw =>
              hws w ((List.dropWhile_sublist _).subset hw)⟩
          obtain ⟨inside, outside, rfl, hinside, hout⟩ := ih rfl hp hq hstack h
          rw [takeWhile_append_cons_of_neg (p := fun w => (f w).waiting.yieldsTo op') hstays,
            ← List.append_assoc]
          refine ⟨_, outside, rfl, fun b hb => ?_, hout⟩
          rcases List.mem_append.mp hb with hb | hb
          · exact .inl ((List.takeWhile_sublist _).subset hb)
          · rcases hinside b hb with hb | hb
            · rcases List.mem_cons.mp hb with rfl | hb
              · exact .inr (.head _)
              · exact .inl ((List.dropWhile_sublist _).subset hb)
            · exact .inr (.tail _ hb)
  | group _ _ ihin ih =>
      rw [List.cons_append] at hinner
      obtain ⟨p', inner, rfl, hp', hinner⟩ := List.map_eq_cons_iff.mp hinner
      obtain ⟨inner₁, inner₂, rfl, hinner₁, hinner⟩ := List.map_eq_append_iff.mp hinner
      obtain ⟨q', inner₂, rfl, hq', hinner₂⟩ := List.map_eq_cons_iff.mp hinner
      cases h with
      | number ha' | operator ha' | rightParen _ ha' => rw [hp'] at ha'; cases ha'
      | leftParen _ h =>
          have h : Arranges f ([] ++ p' :: (ws ++ p :: below))
              (inner₁ ++ q' :: (inner₂ ++ q :: rest)) order := by simpa using h
          obtain ⟨inside₁, order, rfl, hinside₁, h⟩ :=
            ihin hinner₁ hp' hq' (List.forall_mem_nil _) h
          obtain ⟨inside₂, outside, rfl, hinside₂, hout⟩ := ih hinner₂ hp hq hws h
          refine ⟨inside₁ ++ inside₂, outside, (List.append_assoc ..).symm, by grind, hout⟩

/-- What comes first in a sequence comes out, or waits for the rest. -/
theorem Arranges.exists_append {front back : List α} (h : Arranges f ws (front ++ back) order) :
    ∃ before waiting after, order = before ++ after ∧ Arranges f waiting back after ∧
      (∀ a ∈ before, a ∈ ws ∨ a ∈ front) ∧ ∀ a ∈ waiting, a ∈ ws ∨ a ∈ front := by
  have hparts (p : α → Bool) (ws : List α) :
      (∀ w ∈ ws.takeWhile p, w ∈ ws) ∧ ∀ w ∈ ws.dropWhile p, w ∈ ws :=
    ⟨fun _ hw => (List.takeWhile_sublist p).subset hw,
      fun _ hw => (List.dropWhile_sublist p).subset hw⟩
  induction front generalizing ws order with
  | nil => exact ⟨[], ws, order, rfl, h, by simp, by simp⟩
  | cons a front ih =>
      rw [List.cons_append] at h
      cases h with
      | number ha h =>
          obtain ⟨before, waiting, after, rfl, hafter, hbefore, hwaiting⟩ := ih h
          exact ⟨a :: before, waiting, after, rfl, hafter, by grind, by grind⟩
      | @operator _ _ _ _ op ha h =>
          obtain ⟨before, waiting, after, rfl, hafter, hbefore, hwaiting⟩ := ih h
          have hws := hparts (fun w => (f w).waiting.yieldsTo op) ws
          rw [← List.append_assoc]
          exact ⟨_, waiting, after, rfl, hafter, by grind, by grind⟩
      | leftParen ha h =>
          obtain ⟨before, waiting, after, rfl, hafter, hbefore, hwaiting⟩ := ih h
          exact ⟨before, waiting, after, rfl, hafter, by grind, by grind⟩
      | rightParen hp ha hsplit h =>
          obtain ⟨before, waiting, after, rfl, hafter, hbefore, hwaiting⟩ := ih h
          have hws := hparts (fun w => (f w).isOperator) ws
          rw [hsplit] at hws
          rw [← List.append_assoc]
          exact ⟨_, waiting, after, rfl, hafter, by grind, by grind⟩

/-- The places between two parentheses that match come out side by side. -/
theorem Arranges.exists_block {front inner back : List α} {p q : α}
    (h : Arranges f [] (front ++ p :: (inner ++ q :: back)) order) (hp : f p = .leftParen)
    (hq : f q = .rightParen) (hinner : Balanced (inner.map f)) :
    ∃ before inside after, order = before ++ inside ++ after ∧ (∀ a ∈ before, a ∈ front) ∧
      (∀ a ∈ inside, a ∈ inner) ∧ ∀ a ∈ after, a ∈ front ∨ a ∈ back := by
  obtain ⟨before, waiting, rest, rfl, h, hbefore, hwaiting⟩ := h.exists_append
  cases h with
  | number ha | operator ha | rightParen _ ha => rw [hp] at ha; cases ha
  | leftParen _ h =>
      have hnone : ∀ w ∈ ([] : List α), (f w).isOperator = true := List.forall_mem_nil _
      obtain ⟨inside, after, rfl, hinside, h⟩ :=
        Arranges.exists_group hinner rfl hp hq hnone h
      refine ⟨before, inside, after, (List.append_assoc ..).symm, by simpa using hbefore,
        by simpa using hinside, fun a ha => ?_⟩
      rcases List.mem_append.mp (List.mem_filter.mp (h.perm.mem_iff.mp ha)).1 with hmem | hmem
      · exact .inl (by simpa using hwaiting a hmem)
      · exact .inr hmem

end Places

/-! ### The order of a sequence -/

section Sequence
variable {ts : List Token} {order : List (Fin ts.length)} {i j p q : Fin ts.length}

/-- The parentheses at `p` and `q` match: what stands between them is balanced. -/
def Matches (ts : List Token) (p q : Fin ts.length) : Prop :=
  p < q ∧ ts.get p = .leftParen ∧ ts.get q = .rightParen ∧ Balanced ((ts.take q).drop (p + 1))

/-- The places of a sequence fall into those before, between and after two of them. -/
theorem exists_finRange_split (h : p < q) : ∃ front inner back,
    List.finRange ts.length = front ++ p :: (inner ++ q :: back) ∧
      inner.map ts.get = (ts.take q).drop (p + 1) := by
  have hat (i : Fin ts.length) : (List.finRange ts.length).drop i =
      i :: (List.finRange ts.length).drop (i + 1) := by
    rw [List.drop_eq_getElem_cons (by simp), List.getElem_finRange]
    rfl
  refine ⟨(List.finRange ts.length).take p, ((List.finRange ts.length).take q).drop (p + 1),
    (List.finRange ts.length).drop (q + 1), ?_, ?_⟩
  · have hrest : ((List.finRange ts.length).take q).drop (p + 1) ++
        (List.finRange ts.length).drop q = (List.finRange ts.length).drop (p + 1) := by
      conv_rhs =>
        rw [← List.take_append_drop (q - (p + 1)) ((List.finRange ts.length).drop (p + 1)),
          List.drop_drop, Nat.add_sub_cancel' (Fin.lt_def.mp h)]
      rw [List.drop_take]
    rw [← hat q, hrest, ← hat p, List.take_append_drop]
  · rw [List.map_drop, List.map_take, List.map_get_finRange]

/-- The places of `ts` in the order `order` in which its tokens come out. -/
structure IsPostfixOrder (ts : List Token) (order : List (Fin ts.length)) : Prop where
  /-- Tokens like these come out in the same order. -/
  alike : ∀ us : Fin ts.length → Token, (∀ i, (ts.get i).Alike (us i)) →
    ofInfix (List.ofFn us) = .ok (order.map us)
  perm : order.Perm ((List.finRange ts.length).filter fun i => !(ts.get i).isParen)
  numbers : (order.filter fun i => (ts.get i).isNumber) =
    (List.finRange ts.length).filter fun i => (ts.get i).isNumber
  after : ∀ i j, i < j → (ts.get i).isNumber = true → (ts.get j).isOperator = true →
    [i, j].Sublist order
  block : ∀ p q, Matches ts p q → (order.filter fun i => p < i ∧ i < q) <:+: order

section Whole
variable (h : Arranges ts.get [] (List.finRange ts.length) order)
include h

/-- Everything but parentheses comes out. -/
theorem Arranges.mem_of_whole (hi : (ts.get i).isParen = false) : i ∈ order := by
  have hperm : order.Perm ((List.finRange ts.length).filter fun i => !(ts.get i).isParen) := h.perm
  simpa [hperm.mem_iff] using hi

/-- Before a number comes nothing that stood behind it. -/
theorem Arranges.number_last_of_whole :
    order.Pairwise fun i j => (ts.get j).isNumber = true → i < j :=
  h.number_last (by simp) (by simp) (List.pairwise_lt_finRange _)

/-- Numbers come out as they stood. -/
theorem Arranges.filter_isNumber : (order.filter fun i => (ts.get i).isNumber) =
    (List.finRange ts.length).filter fun i => (ts.get i).isNumber := by
  have hkept : (fun i => (ts.get i).isNumber && !(ts.get i).isParen) =
      fun i => (ts.get i).isNumber := funext fun i => by cases ts.get i <;> rfl
  have hperm : order.Perm ((List.finRange ts.length).filter fun i => !(ts.get i).isParen) := h.perm
  have hnumbers := hperm.filter fun i => (ts.get i).isNumber
  rw [List.filter_filter, hkept] at hnumbers
  have hordered : (order.filter fun i => (ts.get i).isNumber).Pairwise (· < ·) :=
    (h.number_last_of_whole.filter _).imp_of_mem fun _ hb hab => hab (List.mem_filter.mp hb).2
  exact hnumbers.eq_of_pairwise (fun a b _ _ hab hba => absurd hab hba.asymm) hordered
    ((List.pairwise_lt_finRange _).filter _)

/-- An operator comes out behind a number that stood before it. -/
theorem Arranges.sublist_of_lt (hij : i < j) (hi : (ts.get i).isNumber = true)
    (hj : (ts.get j).isOperator = true) : [i, j].Sublist order := by
  have hlast := h.number_last_of_whole
  have hmemj := h.mem_of_whole (Token.isParen_of_isOperator hj)
  obtain ⟨before, after, rfl⟩ :=
    List.append_of_mem (h.mem_of_whole (Token.isParen_of_isNumber hi))
  rcases List.mem_append.mp hmemj with hbefore | hafter
  · exact absurd ((List.pairwise_append.mp hlast).2.2 j hbefore i (.head _) hi) hij.asymm
  · rcases List.mem_cons.mp hafter with rfl | hafter
    · exact absurd hij (lt_irrefl _)
    · exact ((List.singleton_sublist.mpr hafter).cons_cons i).trans (List.sublist_append_right ..)

/-- What stands between two parentheses that match comes out side by side. -/
theorem Arranges.filter_between (hpq : Matches ts p q) :
    (order.filter fun i => p < i ∧ i < q) <:+: order := by
  obtain ⟨hlt, hp, hq, hbetween⟩ := hpq
  obtain ⟨front, inner, back, hsplit, hmap⟩ := exists_finRange_split hlt
  have hsorted := List.pairwise_lt_finRange ts.length
  rw [hsplit] at h hsorted
  obtain ⟨before, inside, after, rfl, hbefore, hinside, hafter⟩ :=
    h.exists_block hp hq (hmap ▸ hbetween)
  obtain ⟨-, hsorted, hfront⟩ := List.pairwise_append.mp hsorted
  obtain ⟨hafterp, hsorted⟩ := List.pairwise_cons.mp hsorted
  obtain ⟨-, hsorted, hinner⟩ := List.pairwise_append.mp hsorted
  obtain ⟨hback, -⟩ := List.pairwise_cons.mp hsorted
  have hnone {l : List (Fin ts.length)} (hl : ∀ i ∈ l, i ∈ front ∨ i ∈ back) :
      l.filter (fun i => p < i ∧ i < q) = [] := by
    refine List.filter_eq_nil_iff.mpr fun i hi hbetween => ?_
    obtain ⟨hpi, hiq⟩ := of_decide_eq_true hbetween
    rcases hl i hi with hi | hi
    · exact hpi.asymm (hfront i hi p (.head _))
    · exact hiq.asymm (hback i hi)
  have hall : inside.filter (fun i => p < i ∧ i < q) = inside := by
    refine List.filter_eq_self.mpr fun i hi => decide_eq_true ?_
    have hi := hinside i hi
    exact ⟨hafterp i (List.mem_append_left _ hi), hinner i hi q (.head _)⟩
  rw [List.filter_append, List.filter_append, hall, hnone fun i hi => .inl (hbefore i hi),
    hnone hafter, List.nil_append, List.append_nil]
  exact ⟨before, after, rfl⟩

/-- What the conversion arranges from the whole of a sequence is a postfix order of it. -/
theorem Arranges.isPostfixOrder : IsPostfixOrder ts order where
  alike us hus := by
    rw [List.ofFn_eq_map]
    exact (h.congr hus).convertFrom_eq
  perm := h.perm
  numbers := h.filter_isNumber
  after _ _ := h.sublist_of_lt
  block _ _ := h.filter_between

end Whole

theorem filter_map_get (p : Token → Bool) :
    ((List.finRange ts.length).filter fun i => p (ts.get i)).map ts.get = ts.filter p := by
  conv_rhs => rw [← List.map_get_finRange ts, List.filter_map]
  rfl

namespace IsPostfixOrder

theorem isParen_eq_false (h : IsPostfixOrder ts order) : ∀ t ∈ order.map ts.get,
    t.isParen = false := by
  refine List.forall_mem_map.mpr fun i hi => ?_
  simpa using (List.mem_filter.mp (h.perm.mem_iff.mp hi)).2

/-- A postfix order has the numbers of the sequence as they stood. -/
theorem filter_isNumber (h : IsPostfixOrder ts order) :
    (order.map ts.get).filter Token.isNumber = ts.filter Token.isNumber := by
  rw [List.filter_map, Function.comp_def, h.numbers, filter_map_get]

/-- A postfix order has the operators of the sequence, each as often as there. -/
theorem filter_isOperator (h : IsPostfixOrder ts order) :
    ((order.map ts.get).filter Token.isOperator).Perm (ts.filter Token.isOperator) := by
  have hkept : (fun i => (ts.get i).isOperator && !(ts.get i).isParen) =
      fun i => (ts.get i).isOperator := funext fun i => by cases ts.get i <;> rfl
  have hoperators := (h.perm.filter fun i => (ts.get i).isOperator).map ts.get
  rw [List.filter_filter, hkept, filter_map_get] at hoperators
  rwa [List.filter_map, Function.comp_def]

end IsPostfixOrder

/-- Where the conversion succeeds, there is a postfix order that it gives. -/
theorem exists_isPostfixOrder {out : List Token} (h : ofInfix ts = .ok out) :
    ∃ order, IsPostfixOrder ts order ∧ ofInfix ts = .ok (order.map ts.get) := by
  have hconvert : convertFrom (([] : List (Fin ts.length)).map fun i => (ts.get i).waiting)
      ((List.finRange ts.length).map ts.get) = .ok out := by
    rwa [List.map_get_finRange]
  obtain ⟨order, horder⟩ := exists_arranges (List.forall_mem_nil _) hconvert
  have hout := horder.convertFrom_eq
  rw [List.map_get_finRange] at hout
  exact ⟨order, horder.isPostfixOrder, hout⟩

end Sequence

end Postfix

/-- **Parentheses alone decide whether tokens have a postfix order**, in whatever order they stand.
It fails at a parenthesis that closes nothing exactly when some part at the front closes more than
it opens, and at the end, for one that stays open, exactly when there is no such part and the
parentheses are unbalanced all the same.  Otherwise every place comes out once but those of
parentheses: numbers as they stood, operators behind all numbers that stood before them, and the
places between two parentheses that match side by side. -/
theorem ofInfix_of_parentheses (ts : List Token) :
    ((∃ f, Postfix.ofInfix ts = .error f) ↔ ¬ Postfix.Balanced ts) ∧
    (Postfix.ofInfix ts = .error .unexpectedClose ↔
      ∃ front, front <+: ts ∧ front.count .leftParen < front.count .rightParen) ∧
    (Postfix.ofInfix ts = .error .unclosedOpen ↔ ¬ Postfix.Balanced ts ∧
      ¬ ∃ front, front <+: ts ∧ front.count .leftParen < front.count .rightParen) ∧
    (Failure.unexpectedClose.message = "Mismatched parentheses: unexpected ')'" ∧
      Failure.unclosedOpen.message = "Mismatched parentheses: unclosed '('") ∧
    (Postfix.Balanced ts → ∃ order : List (Fin ts.length), Postfix.IsPostfixOrder ts order ∧
      Postfix.ofInfix ts = .ok (order.map ts.get) ∧
      (∀ t ∈ order.map ts.get, t.isParen = false) ∧
      (order.map ts.get).filter Token.isNumber = ts.filter Token.isNumber ∧
      ((order.map ts.get).filter Token.isOperator).Perm (ts.filter Token.isOperator)) := by
  have hover : Postfix.Overcloses 0 ts ↔
      ∃ front, front <+: ts ∧ front.count .leftParen < front.count .rightParen := by
    simp [Postfix.Overcloses]
  rw [← hover]
  rcases Postfix.ofInfix_verdict ts with ⟨h, hbalanced, hcloses⟩ | ⟨h, hbalanced, hcloses⟩ |
    ⟨⟨out, h⟩, hbalanced, hcloses⟩
  · exact ⟨by simp [h, hbalanced], by simp [h, hcloses], by simp [h, hcloses], ⟨rfl, rfl⟩,
      fun hyes => absurd hyes hbalanced⟩
  · exact ⟨by simp [h, hbalanced], by simp [h, hcloses], by simp [h, hbalanced, hcloses],
      ⟨rfl, rfl⟩, fun hyes => absurd hyes hbalanced⟩
  · obtain ⟨order, horder, hout⟩ := Postfix.exists_isPostfixOrder h
    exact ⟨by simp [h, hbalanced], by simp [h, hcloses], by simp [h, hbalanced], ⟨rfl, rfl⟩,
      fun _ => ⟨order, horder, hout, horder.isParen_eq_false, horder.filter_isNumber,
        horder.filter_isOperator⟩⟩

end Abacus
