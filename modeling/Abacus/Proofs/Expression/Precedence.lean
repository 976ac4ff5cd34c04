import Abacus.Proofs.Expression.Acceptance

/-!
# Abacus — Expression — The tree that precedences give

`HasTree` reads a sequence by its precedences alone: the root is the loosest operator outside
parentheses, the last of them where operators group to the left and the first where they group to
the right, and both sides are read the same way.  When operators of one precedence group the same
way, every sequence in infix order has one such tree, and its postfix order is the tree's
post-order (`ofInfix_infixOrder`).

* `HasTree.exists_cons`: an operand put before an expression finds its place on the left edge of
  the expression's tree.
* `HasTree.grouped`: the tree is the one in which the converter groups the sequence.
* `Tree.append_postOrder_inj`: the post-order of a tree determines the tree.
-/

namespace Abacus

/-! ### Post-order -/

/-- A sequence ends with the post-order of one tree at most. -/
theorem Tree.append_postOrder_inj {t u : Tree OperatorToken} {xs ys : List Token}
    (h : xs ++ t.postOrder = ys ++ u.postOrder) : xs = ys ∧ t = u := by
  induction t generalizing u xs ys with
  | number v =>
      cases u with
      | number w =>
          obtain ⟨rfl, hlast⟩ := List.append_inj' h rfl
          cases hlast
          exact ⟨rfl, rfl⟩
      | node op l r =>
          simp only [postOrder, ← List.append_assoc] at h
          obtain ⟨-, hlast⟩ := List.append_inj' h rfl
          cases hlast
  | node op l r ihl ihr =>
      cases u with
      | number w =>
          simp only [postOrder, ← List.append_assoc] at h
          obtain ⟨-, hlast⟩ := List.append_inj' h rfl
          cases hlast
      | node op' l' r' =>
          simp only [postOrder, ← List.append_assoc] at h
          obtain ⟨hsides, hlast⟩ := List.append_inj' h rfl
          cases hlast
          obtain ⟨hleft, rfl⟩ := ihr hsides
          obtain ⟨rfl, rfl⟩ := ihl hleft
          exact ⟨rfl, rfl⟩

/-- A tree can be read off its post-order. -/
theorem Tree.postOrder_injective : Function.Injective Tree.postOrder := fun _ _ h =>
  (append_postOrder_inj (congrArg ([] ++ ·) h)).2

namespace Token

/-! ### Trees by precedence -/

/-- The operators of a sequence, those in parentheses among them. -/
def operators (ts : List Token) : List OperatorToken :=
  ts.filterMap fun
    | .operator op                          => some op
    | .number _ | .leftParen | .rightParen  => none

@[simp] theorem operators_nil : operators [] = [] := rfl

@[simp] theorem operators_append (ts us : List Token) :
    operators (ts ++ us) = operators ts ++ operators us := List.filterMap_append

@[simp] theorem operators_operator (op : OperatorToken) (ts : List Token) :
    operators (.operator op :: ts) = op :: operators ts := rfl

@[simp] theorem operators_leftParen (ts : List Token) :
    operators (.leftParen :: ts) = operators ts := rfl

@[simp] theorem operators_rightParen (ts : List Token) :
    operators (.rightParen :: ts) = operators ts := rfl

/-- Operators of one precedence group the same way. -/
def LevelsAgree (ops : List OperatorToken) : Prop :=
  ∀ p ∈ ops, ∀ q ∈ ops, p.precedence = q.precedence → p.associativity = q.associativity

instance (ops : List OperatorToken) : Decidable (LevelsAgree ops) :=
  inferInstanceAs (Decidable (∀ p ∈ ops, ∀ q ∈ ops, _ → _))

/-- Fewer operators have fewer levels on which to disagree. -/
theorem LevelsAgree.subset {ps ops : List OperatorToken} (h : LevelsAgree ops) (hsub : ps ⊆ ops) :
    LevelsAgree ps :=
  fun p hp q hq => h p (hsub hp) q (hsub hq)

/-- `HasTree ts ops t`: `t` is the tree of `ts`, whose operators outside parentheses are `ops`.
No operator outside parentheses binds looser than the root; one that binds as loosely stands before
it if the root groups to the left, and behind it if the root groups to the right. -/
inductive HasTree : List Token → List OperatorToken → Tree OperatorToken → Prop where
  | number (v : Binary64) : HasTree [.number v] [] (.number v)
  | group {ts : List Token} {ops : List OperatorToken} {t : Tree OperatorToken}
      (h : HasTree ts ops t) : HasTree (.leftParen :: ts ++ [.rightParen]) [] t
  | node {ts us : List Token} {ps qs : List OperatorToken} {l r : Tree OperatorToken}
      (op : OperatorToken) (hl : HasTree ts ps l) (hr : HasTree us qs r)
      (hlowest : ∀ q ∈ ps ++ qs, op.precedence ≤ q.precedence)
      (hlast : op.associativity = .left → ∀ q ∈ qs, op.precedence ≠ q.precedence)
      (hfirst : op.associativity = .right → ∀ p ∈ ps, op.precedence ≠ p.precedence) :
      HasTree (ts ++ .operator op :: us) (ps ++ op :: qs) (.node op l r)

namespace HasTree
variable {ts us : List Token} {ps qs ops : List OperatorToken} {l r t : Tree OperatorToken}

/-- The operators outside parentheses are some of all. -/
theorem subset_operators (h : HasTree ts ops t) : ops ⊆ operators ts := by
  induction h with
  | number v => exact List.nil_subset _
  | group _ _ => exact List.nil_subset _
  | node op _ _ _ _ _ ihl ihr =>
      rw [operators_append, operators_operator]
      exact List.append_subset.mpr ⟨List.subset_append_of_subset_left _ ihl,
        List.subset_append_of_subset_right _ (List.cons_subset_cons op ihr)⟩

/-- An operand and an operator may be put before a sequence that has a tree: the operator becomes
the root, or goes with its operand into the old root's left side. -/
theorem exists_cons (op : OperatorToken) (hl : HasTree ts [] l) (hr : HasTree us qs r)
    (hagree : LevelsAgree (op :: qs)) :
    ∃ t, HasTree (ts ++ .operator op :: us) (op :: qs) t := by
  induction hr with
  | number v => exact ⟨_, .node op hl (.number v) (by simp) (by simp) (by simp)⟩
  | group h _ => exact ⟨_, .node op hl (.group h) (by simp) (by simp) (by simp)⟩
  | @node us₁ us₂ ps qs l' r' o hl' hr' hlowest hlast hfirst ihl _ =>
      by_cases hroot : op.precedence < o.precedence ∨
          op.precedence = o.precedence ∧ op.associativity = .right
      · -- the new operator binds looser than all that follows, or comes first where that decides
        have hle : ∀ q ∈ ps ++ o :: qs, o.precedence ≤ q.precedence := fun q hq => by
          rcases List.mem_append.mp hq with hq | hq
          · exact hlowest q (List.mem_append_left _ hq)
          · rcases List.mem_cons.mp hq with rfl | hq
            · exact le_rfl
            · exact hlowest q (List.mem_append_right _ hq)
        refine ⟨_, .node op hl (.node o hl' hr' hlowest hlast hfirst) ?_ ?_ (by simp)⟩
        · intro q hq
          have := hle q hq
          omega
        · intro hleft q hq
          have := hle q hq
          rcases hroot with hlt | ⟨-, hright⟩
          · omega
          · rw [hleft] at hright; cases hright
      · -- the old root stays, and the new operator goes to its left operand
        obtain ⟨t, ht⟩ := ihl (hagree.subset fun q hq => by
          rcases List.mem_cons.mp hq with rfl | hq
          · exact List.mem_cons_self
          · exact List.mem_cons_of_mem _ (List.mem_append_left _ hq))
        have hle : o.precedence ≤ op.precedence := by omega
        have := HasTree.node o ht hr' (fun q hq => by
          rcases List.mem_cons.mp hq with rfl | hq
          · exact hle
          · exact hlowest q hq) hlast (fun hright p hp heq => by
          rcases List.mem_cons.mp hp with rfl | hp
          · have hsame := hagree p List.mem_cons_self o (by simp) heq.symm
            exact hroot (.inr ⟨heq.symm, hsame.trans hright⟩)
          · exact hfirst hright p hp heq)
        rw [List.append_assoc, List.cons_append] at this
        exact ⟨_, this⟩

/-- The tree is the one in which the sequence groups. -/
theorem grouped (h : HasTree ts ops t) (hagree : LevelsAgree (operators ts)) :
    Postfix.Grouped ts ops t := by
  induction h with
  | number v => exact .number v
  | group _ ih => exact .group (ih (by simpa using hagree))
  | @node ts us ps qs l r op hl hr hlowest hlast hfirst ihl ihr =>
      rw [operators_append, operators_operator] at hagree
      refine .node op (ihl (hagree.subset (by simp))) (ihr (hagree.subset (by simp))) ?_ ?_
      · intro p hp
        have hle := hlowest p (List.mem_append_left _ hp)
        cases ha : op.associativity with
        | left => simpa [Postfix.Waiting.yieldsTo, ha] using hle
        | right =>
            simpa [Postfix.Waiting.yieldsTo, ha] using lt_of_le_of_ne hle (hfirst ha p hp)
      · intro q hq
        have hle := hlowest q (List.mem_append_right _ hq)
        cases ha : q.associativity with
        | left =>
            -- of the root's level `q` would group to the left with it, and stand before it
            have hne : op.precedence ≠ q.precedence := fun heq =>
              hlast ((hagree op (by simp) q (by simp [hr.subset_operators hq]) heq).trans ha) q hq
                heq
            simpa [Postfix.Waiting.yieldsTo, ha] using lt_of_le_of_ne hle hne
        | right => simpa [Postfix.Waiting.yieldsTo, ha] using hle

end HasTree

/-- Every sequence in infix order has a tree; an operand has no operator outside parentheses. -/
theorem InfixOrder.exists_hasTree {p : Phrase} {ts : List Token} (h : InfixOrder p ts)
    (hagree : LevelsAgree (operators ts)) :
    ∃ ops t, HasTree ts ops t ∧ (p = .operand → ops = []) := by
  induction h with
  | number v => exact ⟨[], _, .number v, fun _ => rfl⟩
  | group _ ih =>
      obtain ⟨ops, t, ht, -⟩ := ih (by simpa using hagree)
      exact ⟨[], t, .group ht, fun _ => rfl⟩
  | single _ ih =>
      obtain ⟨ops, t, ht, -⟩ := ih hagree
      exact ⟨ops, t, ht, nofun⟩
  | more op _ _ ihl ihr =>
      rw [operators_append, operators_operator] at hagree
      obtain ⟨ps, l, hl, hps⟩ := ihl (hagree.subset (by simp))
      obtain ⟨qs, r, hr, -⟩ := ihr (hagree.subset (by simp))
      obtain rfl := hps rfl
      obtain ⟨t, ht⟩ := hl.exists_cons op hr (hagree.subset
        (List.subset_append_of_subset_right _ (List.cons_subset_cons op hr.subset_operators)))
      exact ⟨_, t, ht, nofun⟩

end Token

/-- **The postfix order of a sequence in infix order is the post-order of its tree**, for operators
of any precedences and groupings that agree on each level: the sequence has one tree. -/
theorem ofInfix_infixOrder {ts : List Token} (h : Token.InfixOrder .expression ts)
    (hagree : Token.LevelsAgree (Token.operators ts)) :
    ∃ t, (∃ ops, Token.HasTree ts ops t) ∧ (∀ u ops, Token.HasTree ts ops u → u = t) ∧
      Postfix.ofInfix ts = .ok t.postOrder := by
  have hout {u : Tree OperatorToken} {ops : List OperatorToken} (hu : Token.HasTree ts ops u) :
      Postfix.ofInfix ts = .ok u.postOrder := Postfix.ofInfix_grouped (hu.grouped hagree)
  obtain ⟨ops, t, ht, -⟩ := h.exists_hasTree hagree
  refine ⟨t, ⟨ops, ht⟩, fun u ops' hu => Tree.postOrder_injective ?_, hout ht⟩
  exact Except.ok.inj ((hout hu).symm.trans (hout ht))

/-- `2^3^2-(4-1)` with powers that group to the right. -/
theorem ofInfix_infixOrder_powers :
    let number (i : Int) := Token.number (.ofInt i)
    let power : OperatorToken := ⟨"^", 3, .right⟩
    let minus : OperatorToken := ⟨"-", 1, .left⟩
    let ts := [number 2, .operator power, number 3, .operator power, number 2, .operator minus,
      .leftParen, number 4, .operator minus, number 1, .rightParen]
    Token.InfixOrder .expression ts ∧ Token.LevelsAgree (Token.operators ts) ∧
      ∃ t, (∃ ops, Token.HasTree ts ops t) ∧ (∀ u ops, Token.HasTree ts ops u → u = t) ∧
        Postfix.ofInfix ts = .ok t.postOrder := by
  intro number power minus ts
  have hin : Token.InfixOrder .expression [number 4, .operator minus, number 1] :=
    .more minus (.number _) (.single (.number _))
  have horder : Token.InfixOrder .expression ts :=
    .more power (.number _) (.more power (.number _) (.more minus (.number _)
      (.single (.group hin))))
  have hagree : Token.LevelsAgree (Token.operators ts) := by decide
  exact ⟨horder, hagree, ofInfix_infixOrder horder hagree⟩

end Abacus
