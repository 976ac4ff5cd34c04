import Abacus.Proofs.Expression.Arithmetic

/-!
# Abacus — Expression — The grammar of infix expressions

`Infix` says which texts are expressions: operands with an operation between any two, where an
operand is a number with or without a sign, or an expression in parentheses.  `Reads` says which
tree such a text stands for: products and quotients bind tighter, and chains group to the left.

* `Infix.cons`: an operand may be put before an expression as well as behind it.
* `Infix.exists_reads`: every expression stands for a tree.
-/

namespace Abacus

inductive Phrase where
  | operand
  | expression

/-- The texts of operands and of expressions. -/
inductive Infix : Phrase → List Char → Prop where
  | literal {sign : Option Char} {ds : List Char} (hs : IsSigned sign) (hd : IsLiteral ds) :
      Infix .operand (sign.toList ++ ds)
  | group {cs : List Char} (h : Infix .expression cs) : Infix .operand ('(' :: cs ++ [')'])
  | single {cs : List Char} (h : Infix .operand cs) : Infix .expression cs
  | more {cs ds : List Char} (o : Operation) (h : Infix .expression cs)
      (h' : Infix .operand ds) : Infix .expression (cs ++ o.symbol :: ds)

/-- An expression with an operand before it. -/
theorem Infix.cons {cs ds : List Char} (o : Operation) (h : Infix .operand cs)
    (h' : Infix .expression ds) : Infix .expression (cs ++ o.symbol :: ds) := by
  generalize hp : Phrase.expression = p at h'
  induction h' with
  | literal => cases hp
  | group => cases hp
  | single hds => exact .more o (.single h) hds
  | more o' _ h'' ih =>
      have := Infix.more o' (ih hp) h''
      rwa [List.append_assoc, List.cons_append] at this

/-! ### Trees -/

/-- How far an expression reaches: an operand, a chain of products and quotients, or a chain of
sums and differences. -/
inductive Rank where
  | operand
  | product
  | sum

/-- The tree that a text stands for. -/
inductive Reads : Rank → List Char → Tree Operation → Prop where
  | literal {sign : Option Char} {ds : List Char} {v : Binary64} (hs : IsSigned sign)
      (hd : IsLiteral ds) (hv : Binary64.ofFixed? (sign.toList ++ ds) = some v) :
      Reads .operand (sign.toList ++ ds) (.number v)
  | group {cs : List Char} {t : Tree Operation} (h : Reads .sum cs t) :
      Reads .operand ('(' :: cs ++ [')']) t
  | factor {cs : List Char} {t : Tree Operation} (h : Reads .operand cs t) : Reads .product cs t
  | product {cs ds : List Char} {l r : Tree Operation} (o : Operation) (ho : o.precedence = 2)
      (hl : Reads .product cs l) (hr : Reads .operand ds r) :
      Reads .product (cs ++ o.symbol :: ds) (.node o l r)
  | term {cs : List Char} {t : Tree Operation} (h : Reads .product cs t) : Reads .sum cs t
  | sum {cs ds : List Char} {l r : Tree Operation} (o : Operation) (ho : o.precedence = 1)
      (hl : Reads .sum cs l) (hr : Reads .product ds r) :
      Reads .sum (cs ++ o.symbol :: ds) (.node o l r)

/-- A factor behind an expression belongs to its last term. -/
theorem Reads.exists_append_factor {cs ds : List Char} {l r : Tree Operation} {o : Operation}
    (ho : o.precedence = 2) (hl : Reads .sum cs l) (hr : Reads .operand ds r) :
    ∃ t, Reads .sum (cs ++ o.symbol :: ds) t := by
  cases hl with
  | term h => exact ⟨_, .term (.product o ho h hr)⟩
  | sum o' ho' h h' =>
      -- the new factor goes to the right operand of the last sum or difference
      have := Reads.sum o' ho' h (.product o ho h' hr)
      rw [← List.cons_append, ← List.append_assoc] at this
      exact ⟨_, this⟩

def Phrase.rank : Phrase → Rank
  | .operand    => .operand
  | .expression => .sum

/-- Every expression stands for a tree. -/
theorem Infix.exists_reads {p : Phrase} {cs : List Char} (h : Infix p cs) :
    ∃ t, Reads p.rank cs t := by
  induction h with
  | @literal sign ds hs hd =>
      obtain ⟨v, hv⟩ :=
        Option.isSome_iff_exists.mp ((Binary64.ofFixed?_isSome_iff hs hd.numeric).mpr hd)
      exact ⟨_, .literal hs hd hv⟩
  | group _ ih =>
      obtain ⟨t, ht⟩ := ih
      exact ⟨t, .group ht⟩
  | single _ ih =>
      obtain ⟨t, ht⟩ := ih
      exact ⟨t, .term (.factor ht)⟩
  | more o _ _ ihl ihr =>
      obtain ⟨l, hl⟩ := ihl
      obtain ⟨r, hr⟩ := ihr
      have hsum (ho : o.precedence = 1) := Reads.sum o ho hl (.factor hr)
      cases o with
      | sum => exact ⟨_, hsum rfl⟩
      | difference => exact ⟨_, hsum rfl⟩
      | product => exact hl.exists_append_factor rfl hr
      | quotient => exact hl.exists_append_factor rfl hr

end Abacus
