import Abacus.Proofs.Expression.Grammar
import Abacus.Proofs.Expression.Lexeme
import Abacus.Proofs.Expression.Order

/-!
# Abacus — Expression — The value of an infix expression

The calculator gives an expression the value of its tree.  `Tree.reference` is that value: a number
out of range is an overflow before anything is worked out, and otherwise the operands of each node
come before its operation.

The scanner, the converter and the evaluator meet in `Written`: the text of a tree is written by
lexemes whose tokens group as that tree.  `Reads.exists_written` finds them by recursion on the
reading, and `Written.node` is its only step that looks at precedences.
-/

namespace Abacus

/-- An operation fails by leaving the range or by dividing by zero. -/
theorem Operation.kind_of_apply {o : Operation} {a b : Binary64} {k : FailureKind}
    (h : o.apply a b = .error k) : k = .overflow ∨ k = .divisionByZero := by
  have hbounded (v : Binary64) (h : bounded v = .error k) : k = .overflow := by
    unfold bounded at h
    split at h
    · cases h
    · cases h; rfl
  cases o with
  | sum => exact .inl (hbounded _ h)
  | difference => exact .inl (hbounded _ h)
  | product => exact .inl (hbounded _ h)
  | quotient =>
      simp only [apply] at h
      split at h
      · cases h; exact .inr rfl
      · exact .inl (hbounded _ h)

namespace Tree

/-- The left operand, the right operand and then the operation; the first failure is the value. -/
def value : Tree Operation → Except FailureKind Binary64
  | .number v   => .ok v
  | .node o l r => do
      let a ← l.value
      let b ← r.value
      o.apply a b

/-- Whether every number is in the range of binary64. -/
def inRange {α : Type} (t : Tree α) : Bool :=
  t.numbers.all Binary64.isFinite

/-- A node is in range when both of its sides are. -/
theorem inRange_node {α : Type} (op : α) (l r : Tree α) :
    (node op l r).inRange = (l.inRange && r.inRange) := List.all_append

/-- The value of a tree whose numbers are in range. -/
def reference (t : Tree Operation) : Except FailureKind Binary64 :=
  if t.inRange then t.value else .error .overflow

/-- The failure of a tree is that of one of its operations. -/
theorem kind_of_value {t : Tree Operation} {k : FailureKind} (h : t.value = .error k) :
    k = .overflow ∨ k = .divisionByZero := by
  induction t with
  | number v => cases h
  | node o l r ihl ihr =>
      rw [value] at h
      cases hl : l.value with
      | error k' => rw [hl] at h; cases h; exact ihl hl
      | ok a =>
          rw [hl, Except.ok_bind] at h
          cases hr : r.value with
          | error k' => rw [hr] at h; cases h; exact ihr hr
          | ok b => rw [hr, Except.ok_bind] at h; exact Operation.kind_of_apply h

/-- For the reference value a number out of range is an overflow, too. -/
theorem kind_of_reference {t : Tree Operation} {k : FailureKind} (h : t.reference = .error k) :
    k = .overflow ∨ k = .divisionByZero := by
  unfold reference at h
  split at h
  · exact kind_of_value h
  · cases h; exact .inl rfl

/-- The evaluator gives a tree of the four operations its value. -/
theorem settle_eval (t : Tree Operation) :
    settle ((t.map Operation.token).eval .arithmetic) = .ok t.value := by
  induction t with
  | number v => rfl
  | node o l r ihl ihr =>
      rw [map, eval, settle_bind, ihl, value]
      cases l.value with
      | error k => rfl
      | ok a =>
          simp only [Except.ok_bind]
          rw [settle_bind, ihr]
          cases r.value with
          | error k => rfl
          | ok b => exact settle_applyToken o a b

end Tree

/-! ### Lexemes of a tree -/

/-- Operators outside parentheses bind at least this tightly. -/
def Rank.lowest : Rank → Nat
  | .sum     => 1
  | .product => 2
  | .operand => 3

/-- The lexemes `ls` write `cs` as an expression that groups as `t`, its operators outside
parentheses binding no less tightly than `n`.  Any text may follow that does not lengthen the last
run. -/
structure Written (n : Nat) (cs : List Char) (t : Tree Operation) (ls : List Lexeme) : Prop where
  text : Lexeme.text ls = cs
  placed : ∀ rest, Token.startsNumeric (Lexeme.text rest) = false →
    Placed .arithmetic false rest → Placed .arithmetic true (ls ++ rest)
  tokens : t.inRange = true → ∃ ts ops, ls.mapM Lexeme.token = .ok ts ∧
    Postfix.Grouped ts ops (t.map Operation.token) ∧
    ∀ op ∈ ops, op.associativity = .left ∧ n ≤ op.precedence
  overflow : t.inRange = false → ∃ f, ls.mapM Lexeme.token = .error f ∧ f.kind = .overflow

namespace Written

/-- Operators that bind tightly bind more loosely than required, too. -/
theorem mono {m n : Nat} {cs : List Char} {t : Tree Operation} {ls : List Lexeme} (hmn : m ≤ n)
    (h : Written n cs t ls) : Written m cs t ls where
  text := h.text
  placed := h.placed
  tokens hin := by
    obtain ⟨ts, ops, hts, hg, hops⟩ := h.tokens hin
    exact ⟨ts, ops, hts, hg, fun op hop => ⟨(hops op hop).1, hmn.trans (hops op hop).2⟩⟩
  overflow := h.overflow

/-- A literal is written by a run, and binds as tightly as may be. -/
theorem literal {sign : Option Char} {ds : List Char} {v : Binary64} (hs : IsSigned sign)
    (hd : IsLiteral ds) (hv : Binary64.ofFixed? (sign.toList ++ ds) = some v) (n : Nat) :
    Written n (sign.toList ++ ds) (.number v) [.run sign ds] where
  text := by simp [Lexeme.spelling]
  placed rest hr hrest := by
    cases sign with
    | none => exact .run hd.ne_nil hd.numeric hr hrest
    | some s =>
        obtain ⟨op, hop⟩ := OperatorTable.exists_find?_of_isSign (hs s rfl)
        exact .signed (hs s rfl) hop hd.ne_nil hd.numeric hr hrest
  tokens hin := by
    have hfin : v.isFinite = true := by simpa [Tree.inRange, Tree.numbers] using hin
    refine ⟨[.number v], [], ?_, .number v, by simp⟩
    simp [Lexeme.token, Token.ofLiteral_of_some hv, hfin]
  overflow hin := by
    have hfin : v.isFinite = false := by simpa [Tree.inRange, Tree.numbers] using hin
    refine ⟨.numberOutOfRange (String.ofList (sign.toList ++ ds)), ?_, rfl⟩
    simp [Lexeme.token, Token.ofLiteral_of_some hv, hfin]

/-- Within parentheses anything may stand, and outside they bind as a literal does. -/
theorem group {m : Nat} {cs : List Char} {t : Tree Operation} {ls : List Lexeme}
    (h : Written m cs t ls) (n : Nat) :
    Written n ('(' :: cs ++ [')']) t (.opening :: ls ++ [.closing]) where
  text := by simp [Lexeme.spelling, h.text]
  placed rest _ hrest := by
    have hin := h.placed (.closing :: rest) rfl (.closing OperatorTable.find?_rightParen hrest)
    rw [List.cons_append, List.cons_append, List.append_assoc]
    exact .opening OperatorTable.find?_leftParen hin
  tokens hin := by
    obtain ⟨ts, ops, hts, hg, -⟩ := h.tokens hin
    refine ⟨.leftParen :: ts ++ [.rightParen], [], ?_, hg.group, by simp⟩
    simp [List.mapM_append, hts, Lexeme.token]
  overflow hin := by
    obtain ⟨f, hf, hk⟩ := h.overflow hin
    refine ⟨f, ?_, hk⟩
    simp [List.mapM_append, hf, Lexeme.token]

/-- An operation groups two expressions when what it finds on its left binds no less tightly, and
what it finds on its right more tightly. -/
theorem node {m n k : Nat} {cs ds : List Char} {l r : Tree Operation} {ls ms : List Lexeme}
    (o : Operation) (hl : Written m cs l ls) (hr : Written n ds r ms) (hm : o.precedence ≤ m)
    (hn : o.precedence < n) (hk : k ≤ o.precedence) :
    Written k (cs ++ o.symbol :: ds) (.node o l r) (ls ++ .symbol o.entry :: ms) where
  text := by simp [Lexeme.spelling, hl.text, hr.text, o.entry_symbol]
  placed rest hrest hplaced := by
    have hnumeric : Token.isNumeric o.entry.symbol = false := by
      rw [o.entry_symbol, o.isNumeric_symbol]
    have hfind : OperatorTable.arithmetic.find? o.entry.symbol = some o.entry := by
      rw [o.entry_symbol, OperatorTable.find?_symbol]
    rw [List.append_assoc, List.cons_append]
    -- behind the left operand a sign is an operation, whatever follows it
    refine hl.placed _ ?_ (.symbol hnumeric hfind ?_ (hr.placed rest hrest hplaced))
    · simpa [Lexeme.spelling] using hnumeric
    · simp
  tokens hin := by
    rw [Tree.inRange_node, Bool.and_eq_true] at hin
    obtain ⟨ts, ps, hts, hgl, hps⟩ := hl.tokens hin.1
    obtain ⟨us, qs, hus, hgr, hqs⟩ := hr.tokens hin.2
    refine ⟨ts ++ .operator o.token :: us, ps ++ o.token :: qs, ?_, hgl.node o.token hgr ?_ ?_, ?_⟩
    · simp [List.mapM_append, hts, hus, Lexeme.token, o.entry_token]
    · intro p hp
      exact decide_eq_true (hm.trans (hps p hp).2)
    · intro q hq
      obtain ⟨hleft, hlow⟩ := hqs q hq
      simp only [Postfix.Waiting.yieldsTo, hleft]
      exact decide_eq_false (by rw [Nat.not_le]; exact hn.trans_le hlow)
    · intro op hop
      rcases List.mem_append.mp hop with hp | hop
      · exact ⟨(hps op hp).1, hk.trans (hm.trans (hps op hp).2)⟩
      · rcases List.mem_cons.mp hop with rfl | hq
        · exact ⟨rfl, hk⟩
        · exact ⟨(hqs op hq).1, hk.trans (hn.le.trans (hqs op hq).2)⟩
  overflow hin := by
    rw [Tree.inRange_node] at hin
    -- the scanner stops at the first number out of range
    cases hl' : l.inRange with
    | false =>
        obtain ⟨f, hf, hkind⟩ := hl.overflow hl'
        exact ⟨f, by simp [List.mapM_append, hf], hkind⟩
    | true =>
        obtain ⟨ts, -, hts, -⟩ := hl.tokens hl'
        obtain ⟨f, hf, hkind⟩ := hr.overflow (by simpa [hl'] using hin)
        exact ⟨f, by simp [List.mapM_append, hts, hf, Lexeme.token], hkind⟩

end Written

/-- Whatever a text is read as, it is written so. -/
theorem Reads.exists_written {k : Rank} {cs : List Char} {t : Tree Operation} (h : Reads k cs t) :
    ∃ ls, Written k.lowest cs t ls := by
  induction h with
  | literal hs hd hv => exact ⟨_, .literal hs hd hv _⟩
  | group _ ih =>
      obtain ⟨ls, hls⟩ := ih
      exact ⟨_, hls.group _⟩
  | factor _ ih =>
      obtain ⟨ls, hls⟩ := ih
      exact ⟨ls, hls.mono (by decide)⟩
  | product o ho _ _ ihl ihr =>
      obtain ⟨ls, hls⟩ := ihl
      obtain ⟨ms, hms⟩ := ihr
      exact ⟨_, hls.node o hms (by rw [ho]; decide) (by rw [ho]; decide) (by rw [ho]; decide)⟩
  | term _ ih =>
      obtain ⟨ls, hls⟩ := ih
      exact ⟨ls, hls.mono (by decide)⟩
  | sum o ho _ _ ihl ihr =>
      obtain ⟨ls, hls⟩ := ihl
      obtain ⟨ms, hms⟩ := ihr
      exact ⟨_, hls.node o hms (by rw [ho]; decide) (by rw [ho]; decide) (by rw [ho]; decide)⟩

/-- The calculator answers with the value of the tree that the text is read as. -/
theorem Reads.verdict_eq {raw : String} {t : Tree Operation}
    (h : Reads .sum (canonicalText raw).toList t) :
    verdict .arithmetic raw = .ok t.reference := by
  obtain ⟨ls, hls⟩ := h.exists_written
  have hplaced : Placed .arithmetic true ls := by simpa using hls.placed [] rfl .nil
  have hscan : Token.scan .arithmetic (canonicalText raw) = ls.mapM Lexeme.token := by
    rw [Token.scan, ← hls.text, Token.scanFrom_text hplaced]
  rw [verdict_eq_bind, hscan, Tree.reference]
  cases hin : t.inRange with
  | false =>
      obtain ⟨f, hf, hkind⟩ := hls.overflow hin
      rw [hf, Except.mapError_error, hkind]
      rfl
  | true =>
      obtain ⟨ts, ops, hts, hg, -⟩ := hls.tokens hin
      rw [hts, Except.mapError_ok, if_pos rfl, ← Tree.settle_eval,
        ← Postfix.valueOfInfix_grouped hg]

/-- **Every infix expression has the value of its tree**: it has a tree, the calculator answers
with the value of any tree it has, and no expression is rejected for its form. -/
theorem verdict_of_infix {raw : String} (h : Infix .expression (canonicalText raw).toList) :
    (∃ t, Reads .sum (canonicalText raw).toList t) ∧
    (∀ t, Reads .sum (canonicalText raw).toList t →
      verdict .arithmetic raw = .ok t.reference) ∧
    ∀ k, verdict .arithmetic raw = .ok (.error k) → k = .overflow ∨ k = .divisionByZero := by
  obtain ⟨t, ht⟩ := h.exists_reads
  refine ⟨⟨t, ht⟩, fun _ ht' => ht'.verdict_eq, fun k hk => ?_⟩
  rw [ht.verdict_eq] at hk
  exact Tree.kind_of_reference (Except.ok.inj hk)

/-- A point in front, a signed factor, a cross for the product and a group: the text is in the
grammar, and its verdict is the value of a tree. -/
theorem verdict_of_signed_factor :
    Infix .expression (canonicalText ".5 + -2×(3-1)").toList ∧
      ∃ t : Tree Operation, verdict .arithmetic ".5 + -2×(3-1)" = .ok t.reference := by
  have digits (ds : List Char) (h : (Decimal.fixed? ds).isSome = true) : IsLiteral ds :=
    (Decimal.fixed?_isSome_iff ds).mp h
  have hminus : IsSigned (some '-') := by simp [IsSigned, Token.isSign]
  have hin : Infix .expression ['3', '-', '1'] :=
    .more .difference (.single (.literal isSigned_none (digits ['3'] rfl)))
      (.literal isSigned_none (digits ['1'] rfl))
  have h : Infix .expression (canonicalText ".5 + -2×(3-1)").toList :=
    .more .product
      (.more .sum (.single (.literal isSigned_none (digits ['.', '5'] rfl)))
        (.literal hminus (digits ['2'] rfl)))
      (.group hin)
  obtain ⟨⟨t, ht⟩, hverdict, -⟩ := verdict_of_infix h
  exact ⟨h, t, hverdict t ht⟩

end Abacus
