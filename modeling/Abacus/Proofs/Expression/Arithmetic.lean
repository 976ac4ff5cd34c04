import Abacus.Proofs.Expression.Evaluation
import Abacus.Proofs.Expression.Literal

/-!
# Abacus — Expression — The table of arithmetic

The four operations, what each makes of two operands when every failure is shown by its kind alone,
and the table of arithmetic as the table of these four.  `verdict` is a calculation as the user sees
it, the number or the kind of the failure, and `verdict_eq_bind` takes it apart into the scanner's
part and the rest.
-/

namespace Abacus

/-! ### Verdicts -/

/-- The answer to what the user typed: a number or the kind of its failure. -/
def verdict (table : OperatorTable) (raw : String) : Except Stop (Except FailureKind Binary64) :=
  (calculate table raw).map fun c => c.outcome.result

/-- A failure of an expression as part of the answer, seen by its kind. -/
def settle {α : Type} : Except Stop α → Except Stop (Except FailureKind α)
  | .ok a               => .ok (.ok a)
  | .error (.failed f)  => .ok (.error f.kind)
  | .error stop         => .error stop

section Settle
variable {α β : Type}

@[simp] theorem settle_ok (a : α) : settle (.ok a : Except Stop α) = .ok (.ok a) := rfl

@[simp] theorem settle_failed (f : Failure) :
    settle (.error (.failed f) : Except Stop α) = .ok (.error f.kind) := rfl

/-- A verdict is a number exactly where a number comes out. -/
theorem settle_eq_ok_iff {x : Except Stop α} {a : α} : settle x = .ok (.ok a) ↔ x = .ok a := by
  cases x with
  | ok b => simp
  | error stop => cases stop <;> simp [settle]

/-- A settled step is followed by the rest, or its failure stays. -/
theorem settle_bind (x : Except Stop α) (f : α → Except Stop β) :
    settle (x >>= f) = settle x >>= fun
      | .ok a    => settle (f a)
      | .error k => .ok (.error k) := by
  cases x with
  | ok a => rfl
  | error stop => cases stop <;> rfl

/-- Of a failure, its kind alone is seen. -/
theorem settle_mapError_failed (x : Except Failure α) :
    settle (x.mapError .failed) = .ok (x.mapError Failure.kind) := by
  cases x <;> rfl

end Settle

/-- The verdict on a text is that on its normal form, worked out and settled. -/
theorem verdict_eq_settle (table : OperatorTable) (raw : String) :
    verdict table raw = settle (valueOf table (canonicalText raw)) := by
  simp only [verdict, calculate]
  cases valueOf table (canonicalText raw) with
  | ok v => rfl
  | error stop => cases stop <;> rfl

/-- The answer to a text is the answer to its tokens, if it has any. -/
theorem verdict_eq_bind (table : OperatorTable) (raw : String) :
    verdict table raw =
      match (Token.scan table (canonicalText raw)).mapError Failure.kind with
      | .ok ts   => settle (Postfix.valueOfInfix table ts)
      | .error k => .ok (.error k) := by
  rw [verdict_eq_settle, valueOf_eq_bind, settle_bind, settle_mapError_failed, Except.ok_bind]
  cases (Token.scan table (canonicalText raw)).mapError Failure.kind <;> rfl

/-- A text with a value has tokens with this value. -/
theorem verdict_eq_ok_iff {table : OperatorTable} {raw : String} {v : Binary64} :
    verdict table raw = .ok (.ok v) ↔ ∃ ts, Token.scan table (canonicalText raw) = .ok ts ∧
      Postfix.valueOfInfix table ts = .ok v := by
  simp only [verdict_eq_settle, settle_eq_ok_iff, valueOf_eq_bind, Except.bind_eq_ok_iff,
    Except.mapError_eq_ok_iff]

/-! ### The four operations -/

inductive Operation where
  | sum
  | difference
  | product
  | quotient
  deriving DecidableEq

namespace Operation

def symbol : Operation → Char
  | .sum        => '+'
  | .difference => '-'
  | .product    => '*'
  | .quotient   => '/'

/-- Products and quotients bind tighter than sums and differences. -/
def precedence : Operation → Nat
  | .sum | .difference   => 1
  | .product | .quotient => 2

/-- A number of the calculator is finite; beyond its range is overflow. -/
def bounded (v : Binary64) : Except FailureKind Binary64 :=
  if v.isFinite then .ok v else .error .overflow

/-- The correctly rounded result.  Neither zero divides, and a result out of range overflows. -/
def apply : Operation → Binary64 → Binary64 → Except FailureKind Binary64
  | .sum, a, b        => bounded (a.add b)
  | .difference, a, b => bounded (a.sub b)
  | .product, a, b    => bounded (a.mul b)
  | .quotient, a, b   => if b.isZero then .error .divisionByZero else bounded (a.div b)

/-- The token of an operation. -/
def token (o : Operation) : OperatorToken :=
  ⟨String.singleton o.symbol, o.precedence, .left⟩

/-- The entry of an operation in the table. -/
def entry : Operation → Operator
  | .sum        => ⟨'+', 1, .left, fun a b => .ok (a.add b)⟩
  | .difference => ⟨'-', 1, .left, fun a b => .ok (a.sub b)⟩
  | .product    => ⟨'*', 2, .left, fun a b => .ok (a.mul b)⟩
  | .quotient   => ⟨'/', 2, .left, Binary64.quotient⟩

theorem entry_token (o : Operation) : o.entry.token = o.token := by
  cases o <;> rfl

theorem entry_symbol (o : Operation) : o.entry.symbol = o.symbol := by
  cases o <;> rfl

theorem isNumeric_symbol (o : Operation) : Token.isNumeric o.symbol = false := by
  cases o <;> decide

end Operation

namespace OperatorTable

theorem entries_arithmetic :
    arithmetic.entries =
      [Operation.sum.entry, Operation.difference.entry, Operation.product.entry,
        Operation.quotient.entry] := rfl

theorem find?_symbol (o : Operation) : arithmetic.find? o.symbol = some o.entry := by
  cases o <;> rfl

/-- Each operation is found under its own sign, by the evaluator as by the scanner. -/
theorem get?_symbol (o : Operation) : arithmetic.get? o.token.symbol = some o.entry := by
  rw [← o.entry_token]
  exact get?_token (find?_symbol o)

/-- The table of arithmetic holds nothing but the four operations. -/
theorem exists_operation {op : Operator} (h : op ∈ arithmetic.entries) :
    ∃ o : Operation, op = o.entry := by
  rw [entries_arithmetic] at h
  simp only [List.mem_cons, List.not_mem_nil, or_false] at h
  rcases h with rfl | rfl | rfl | rfl
  exacts [⟨.sum, rfl⟩, ⟨.difference, rfl⟩, ⟨.product, rfl⟩, ⟨.quotient, rfl⟩]

/-- A sign is the symbol of an operation. -/
theorem exists_find?_of_isSign {s : Char} (h : Token.isSign s = true) :
    ∃ op, arithmetic.find? s = some op := by
  rcases Token.isSign_iff.mp h with rfl | rfl
  exacts [⟨_, find?_symbol .sum⟩, ⟨_, find?_symbol .difference⟩]

theorem find?_leftParen : arithmetic.find? '(' = none := rfl

theorem find?_rightParen : arithmetic.find? ')' = none := rfl

end OperatorTable

/-- What the table makes of an operation's operands is what the operation makes of them. -/
theorem settle_applyToken (o : Operation) (a b : Binary64) :
    settle (Postfix.applyToken .arithmetic o.token a b) = .ok (o.apply a b) := by
  simp only [Postfix.applyToken, OperatorTable.get?_symbol, Postfix.apply]
  cases o with
  | sum => simp only [Operation.entry, Operation.apply, Operation.bounded]; split <;> rfl
  | difference => simp only [Operation.entry, Operation.apply, Operation.bounded]; split <;> rfl
  | product => simp only [Operation.entry, Operation.apply, Operation.bounded]; split <;> rfl
  | quotient =>
      simp only [Operation.entry, Operation.apply, Operation.bounded, Binary64.quotient]
      by_cases hz : b.isZero = true
      · simp [hz, Failure.kind]
      · simp only [hz, Bool.false_eq_true, if_false]
        split <;> rfl

end Abacus
