import Abacus.Binary64.Arithmetic
import Abacus.Binary64.Power
import Abacus.Expression.Failure
import Abacus.Expression.Token
/-!
# Abacus — Expression — Operator

Operators of two operands, and tables of them with one operator a symbol. The table in common use
has the four operations of arithmetic.
-/

namespace Abacus

/-- Why an operator gives no number for its operands. -/
inductive ApplyFailure where
  | reported (f : Failure)
  | tooLarge
  | zeroToNegative
  | notReal
  deriving DecidableEq

/-- What an operator does with its left and right operand. -/
abbrev Application := Binary64 → Binary64 → Except ApplyFailure Binary64

structure Operator where
  symbol : Char
  precedence : Nat
  associativity : Associativity
  apply : Application

def Operator.token (op : Operator) : OperatorToken :=
  ⟨String.singleton op.symbol, op.precedence, op.associativity⟩

/-! ### Applications -/

/-- Division refuses a divisor that is zero, whatever the dividend. -/
def Binary64.quotient (a b : Binary64) : Except ApplyFailure Binary64 :=
  if b.isZero then .error (.reported (.divisionByZero a b)) else .ok (a.div b)

def Binary64.power (a b : Binary64) : Except ApplyFailure Binary64 :=
  match a.pow b with
  | .ok v                    => .ok v
  | .error .tooLarge         => .error .tooLarge
  | .error .zeroToNegative   => .error .zeroToNegative
  | .error .notReal          => .error .notReal

/-- The applications that a table may name. -/
def Application.named? : String → Option Application
  | "add"    => some fun a b => .ok (a.add b)
  | "sub"    => some fun a b => .ok (a.sub b)
  | "mul"    => some fun a b => .ok (a.mul b)
  | "divide" => some Binary64.quotient
  | "pow"    => some Binary64.power
  | "min"    => some fun a b => .ok (a.least b)
  | "max"    => some fun a b => .ok (a.greatest b)
  | "left"   => some fun a _ => .ok a
  | "right"  => some fun _ b => .ok b
  | _        => none

/-! ### Tables -/

/-- Operators in order of entry, no symbol twice. -/
structure OperatorTable where
  entries : List Operator
  nodup : (entries.map Operator.symbol).Nodup

namespace OperatorTable

def find? (table : OperatorTable) (symbol : Char) : Option Operator :=
  table.entries.find? fun op => op.symbol == symbol

/-- The operator whose symbol is the whole text `symbol`. -/
def get? (table : OperatorTable) (symbol : String) : Option Operator :=
  match symbol.toList with
  | [c] => table.find? c
  | _   => none

/-- The symbols in order of entry. -/
def symbols (table : OperatorTable) : List Char :=
  table.entries.map Operator.symbol

def empty : OperatorTable := ⟨[], .nil⟩

/-- Enters one more operator; a symbol that has been entered is handed back. -/
def insert (table : OperatorTable) (op : Operator) : Except Char OperatorTable :=
  if h : op.symbol ∈ table.symbols then .error op.symbol
  else .ok ⟨table.entries ++ [op], by
    simpa [List.nodup_append, table.nodup] using fun a ha e => h (List.mem_map.2 ⟨a, ha, e⟩)⟩

/-- The table of a list of operators, or the first symbol that comes again. -/
def ofList (ops : List Operator) : Except Char OperatorTable :=
  ops.foldlM insert empty

/-- Sums and differences, and the products and quotients that bind tighter; all group to the
left. -/
def arithmetic : OperatorTable where
  entries :=
    [⟨'+', 1, .left, fun a b => .ok (a.add b)⟩,
     ⟨'-', 1, .left, fun a b => .ok (a.sub b)⟩,
     ⟨'*', 2, .left, fun a b => .ok (a.mul b)⟩,
     ⟨'/', 2, .left, Binary64.quotient⟩]
  nodup := by decide

/-- The name of the table's kind around its symbols. -/
def description (table : OperatorTable) : String :=
  "OperatorTable(" ++ String.intercalate ", " (table.symbols.map String.singleton) ++ ")"

end OperatorTable

end Abacus
