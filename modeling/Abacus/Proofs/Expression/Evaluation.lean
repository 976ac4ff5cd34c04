import Abacus.Expression.Calculation
import Abacus.Proofs.Except

/-!
# Abacus — Expression — Evaluating postfix sequences

What one token does to the stack of numbers (`step_cases`), and from it what a whole sequence does.

* `run_frame`: a sequence leaves alone what lay on the stack below its own numbers.
* `run_length`: it leaves one number more for each number and one less for each operator.
* `run_finite`: it leaves only finite numbers when it holds only finite numbers.
* `run_postOrder`: the post-order of a tree leaves the value of the tree.
-/

namespace Abacus

namespace Token

def isNumber : Token → Bool
  | .number _                             => true
  | .operator _ | .leftParen | .rightParen => false

def isOperator : Token → Bool
  | .operator _                         => true
  | .number _ | .leftParen | .rightParen => false

def isParen : Token → Bool
  | .leftParen | .rightParen => true
  | .number _ | .operator _  => false

/-- The numbers and operators of a sequence. -/
def withoutParens (ts : List Token) : List Token :=
  ts.filter fun t => !t.isParen

@[simp] theorem withoutParens_nil : withoutParens [] = [] := rfl

@[simp] theorem withoutParens_number (v : Binary64) (ts : List Token) :
    withoutParens (.number v :: ts) = .number v :: withoutParens ts := rfl

@[simp] theorem withoutParens_operator (op : OperatorToken) (ts : List Token) :
    withoutParens (.operator op :: ts) = .operator op :: withoutParens ts := rfl

@[simp] theorem withoutParens_leftParen (ts : List Token) :
    withoutParens (.leftParen :: ts) = withoutParens ts := rfl

@[simp] theorem withoutParens_rightParen (ts : List Token) :
    withoutParens (.rightParen :: ts) = withoutParens ts := rfl

@[simp] theorem withoutParens_append (ts us : List Token) :
    withoutParens (ts ++ us) = withoutParens ts ++ withoutParens us := List.filter_append ..

end Token

/-! ### Tables -/

namespace OperatorTable
variable {table : OperatorTable} {c : Char} {op : Operator}

/-- What is found for a character has that character for its symbol. -/
theorem symbol_of_find? (h : table.find? c = some op) : op.symbol = c := by
  simpa using List.find?_some h

/-- A character is found exactly when it is among the symbols. -/
theorem exists_find?_iff : (∃ op, table.find? c = some op) ↔ c ∈ table.symbols := by
  rw [← Option.isSome_iff_exists]
  simp [find?, symbols]

theorem find?_eq_none_iff : table.find? c = none ↔ c ∉ table.symbols := by
  rw [← exists_find?_iff, ← Option.isSome_iff_exists, Option.not_isSome_iff_eq_none]

/-- The operator that a token names is the one it was made of. -/
theorem get?_token (h : table.find? c = some op) : table.get? op.token.symbol = some op := by
  simp [get?, Operator.token, symbol_of_find? h, h]

end OperatorTable

/-! ### Trees -/

/-- A binary expression: numbers are its leaves, operators its nodes. -/
inductive Tree (α : Type) where
  | number (v : Binary64)
  | node (op : α) (left right : Tree α)

namespace Tree
variable {α β : Type}

def map (f : α → β) : Tree α → Tree β
  | .number v    => .number v
  | .node op l r => .node (f op) (l.map f) (r.map f)

/-- The numbers at the leaves, from left to right. -/
def numbers : Tree α → List Binary64
  | .number v   => [v]
  | .node _ l r => l.numbers ++ r.numbers

/-- Both operands before their operator, the left one first. -/
def postOrder : Tree OperatorToken → List Token
  | .number v    => [.number v]
  | .node op l r => l.postOrder ++ r.postOrder ++ [.operator op]

end Tree

namespace Postfix

/-- What the table's operator of this symbol makes of two operands. -/
def applyToken (table : OperatorTable) (op : OperatorToken) (a b : Binary64) :
    Except Stop Binary64 :=
  match table.get? op.symbol with
  | none       => .error (.unknownSymbol op.symbol)
  | some entry => apply entry op.symbol a b

end Postfix

/-- The value of a tree: that of the left operand, that of the right one, and the operator's. -/
def Tree.eval (table : OperatorTable) : Tree OperatorToken → Except Stop Binary64
  | .number v    => .ok v
  | .node op l r => do
      let a ← l.eval table
      let b ← r.eval table
      Postfix.applyToken table op a b

namespace Postfix
variable {table : OperatorTable}

/-! ### One token -/

/-- No result that is out of range is given out: the check stands behind each application. -/
theorem isFinite_of_apply {op : Operator} {s : String} {a b v : Binary64}
    (h : apply op s a b = .ok v) : v.isFinite = true := by
  unfold apply at h
  split at h
  · split at h
    · next hv => cases h; exact hv
    · cases h
  all_goals cases h

theorem isFinite_of_applyToken {op : OperatorToken} {a b v : Binary64}
    (h : applyToken table op a b = .ok v) : v.isFinite = true := by
  unfold applyToken at h
  split at h
  · cases h
  · exact isFinite_of_apply h

@[simp] theorem step_number (stack : List Binary64) (v : Binary64) :
    step table stack (.number v) = .ok (v :: stack) := rfl

/-- An operator takes the two numbers on top, the upper one as its right operand. -/
theorem step_operator (op : OperatorToken) (a b : Binary64) (stack : List Binary64) :
    step table (b :: a :: stack) (.operator op) = (· :: stack) <$> applyToken table op a b := by
  simp only [step, applyToken]
  cases table.get? op.symbol <;> rfl

/-- A token that is taken either puts a number on the stack or is an operator that finds two. -/
theorem step_cases {stack stack' : List Binary64} {t : Token}
    (h : step table stack t = .ok stack') :
    (∃ v, t = .number v ∧ stack' = v :: stack) ∨
      ∃ op a b rest v, t = .operator op ∧ stack = b :: a :: rest ∧
        applyToken table op a b = .ok v ∧ stack' = v :: rest := by
  cases t with
  | number v => cases h; exact .inl ⟨v, rfl, rfl⟩
  | operator op =>
      rcases stack with _ | ⟨b, _ | ⟨a, rest⟩⟩
      · cases h
      · cases h
      · rw [step_operator, Except.map_eq_ok_iff] at h
        obtain ⟨v, hv, rfl⟩ := h
        exact .inr ⟨op, a, b, rest, v, rfl, rfl, hv, rfl⟩
  | leftParen => cases h
  | rightParen => cases h

/-! ### Sequences -/

@[simp] theorem run_nil (stack : List Binary64) : run table stack [] = .ok stack := rfl

theorem run_cons (stack : List Binary64) (t : Token) (ts : List Token) :
    run table stack (t :: ts) = step table stack t >>= fun s => run table s ts := rfl

/-- A sequence runs in parts, the later one on the stack that the earlier one leaves. -/
theorem run_append (stack : List Binary64) (ts us : List Token) :
    run table stack (ts ++ us) = run table stack ts >>= fun s => run table s us := by
  simp only [run, List.foldlM_append]

/-- A sequence leaves alone what lies below its own numbers. -/
theorem run_frame {stack stack' : List Binary64} {ts : List Token} (base : List Binary64)
    (h : run table stack ts = .ok stack') :
    run table (stack ++ base) ts = .ok (stack' ++ base) := by
  induction ts generalizing stack with
  | nil => cases h; rfl
  | cons t ts ih =>
      rw [run_cons, Except.bind_eq_ok_iff] at h
      obtain ⟨s, hs, h⟩ := h
      rw [run_cons]
      rcases step_cases hs with ⟨v, rfl, rfl⟩ | ⟨op, a, b, rest, v, rfl, rfl, hv, rfl⟩
      · exact ih h
      · rw [List.cons_append, List.cons_append, step_operator, hv]
        exact ih h

/-- Each number adds one to the stack and each operator takes one away. -/
theorem run_length {stack stack' : List Binary64} {ts : List Token}
    (h : run table stack ts = .ok stack') :
    stack'.length + ts.countP Token.isOperator = stack.length + ts.countP Token.isNumber := by
  induction ts generalizing stack with
  | nil => cases h; rfl
  | cons t ts ih =>
      rw [run_cons, Except.bind_eq_ok_iff] at h
      obtain ⟨s, hs, h⟩ := h
      have := ih h
      rcases step_cases hs with ⟨v, rfl, rfl⟩ | ⟨op, a, b, rest, v, rfl, rfl, -, rfl⟩ <;>
        simp only [List.countP_cons, Token.isNumber, Token.isOperator, List.length_cons, if_true,
          Bool.false_eq_true, if_false] at this ⊢ <;>
        omega

/-- A sequence of finite numbers and operators leaves finite numbers. -/
theorem run_finite {stack stack' : List Binary64} {ts : List Token}
    (hstack : ∀ v ∈ stack, v.isFinite = true) (hts : ∀ v, .number v ∈ ts → v.isFinite = true)
    (h : run table stack ts = .ok stack') : ∀ v ∈ stack', v.isFinite = true := by
  induction ts generalizing stack with
  | nil => cases h; exact hstack
  | cons t ts ih =>
      rw [run_cons, Except.bind_eq_ok_iff] at h
      obtain ⟨s, hs, h⟩ := h
      refine ih ?_ (fun v hv => hts v (List.mem_cons_of_mem t hv)) h
      rcases step_cases hs with ⟨v, rfl, rfl⟩ | ⟨op, a, b, rest, v, rfl, rfl, hv, rfl⟩
      · intro w hw
        rcases List.mem_cons.mp hw with rfl | hw
        · exact hts w List.mem_cons_self
        · exact hstack w hw
      · intro w hw
        rcases List.mem_cons.mp hw with rfl | hw
        · exact isFinite_of_applyToken hv
        · exact hstack w (by simp [hw])

/-- The post-order of a tree leaves the tree's value, whatever lies below. -/
theorem run_postOrder (t : Tree OperatorToken) (stack : List Binary64) :
    run table stack t.postOrder = (· :: stack) <$> t.eval table := by
  induction t generalizing stack with
  | number v => rfl
  | node op l r ihl ihr =>
      rw [Tree.postOrder, Tree.eval, run_append, run_append, ihl]
      cases l.eval table with
      | error e => rfl
      | ok a =>
          simp only [Except.map_ok, Except.ok_bind, ihr]
          cases r.eval table with
          | error e => rfl
          | ok b =>
              simp only [Except.map_ok, Except.ok_bind, run_cons, step_operator]
              cases applyToken table op a b <;> rfl

/-- The post-order of a tree has the value of the tree. -/
theorem value_postOrder (t : Tree OperatorToken) : value table t.postOrder = t.eval table := by
  rw [value, run_postOrder]
  cases t.eval table <;> rfl

/-- A sequence has a value when it leaves that number and no other. -/
theorem value_eq_ok_iff {ts : List Token} {v : Binary64} :
    value table ts = .ok v ↔ run table [] ts = .ok [v] := by
  rw [value, Except.bind_eq_ok_iff]
  constructor
  · rintro ⟨stack, hstack, h⟩
    rcases stack with _ | ⟨w, _ | ⟨x, rest⟩⟩
    · cases h
    · cases h; exact hstack
    · cases h
  · intro h
    exact ⟨[v], h, rfl⟩

/-- The value of a sequence of tokens as it was written. -/
def valueOfInfix (table : OperatorTable) (ts : List Token) : Except Stop Binary64 := do
  let out ← (ofInfix ts).mapError .failed
  value table out

/-- A sequence in infix order has the value that its postfix order leaves. -/
theorem valueOfInfix_eq_ok_iff {ts : List Token} {v : Binary64} :
    valueOfInfix table ts = .ok v ↔ ∃ out, ofInfix ts = .ok out ∧ run table [] out = .ok [v] := by
  simp only [valueOfInfix, Except.bind_eq_ok_iff, Except.mapError_eq_ok_iff, value_eq_ok_iff]

end Postfix

/-- A text is read and then worked out; only the reading fails with a position. -/
theorem valueOf_eq_bind (table : OperatorTable) (text : String) :
    valueOf table text =
      (Token.scan table text).mapError .failed >>= Postfix.valueOfInfix table := rfl

end Abacus
