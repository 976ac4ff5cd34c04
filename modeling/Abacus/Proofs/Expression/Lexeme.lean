import Abacus.Proofs.Expression.Evaluation
import Abacus.Proofs.Expression.Literal

/-!
# Abacus — Expression — Lexemes

The scanner reads a text as a sequence of lexemes: runs of digits and points with the sign that
belongs to them, symbols of the table and parentheses.

* `scanFrom_text`: the tokens of a text are those of its lexemes, where each run ends before the
  next digit or point and takes a sign exactly where one would belong to it (`Placed`).
* `exists_lexemes`: every text that has tokens is written by such lexemes.
* `scanFrom_append`: up to a character of no run, a text is scanned as if it ended there.
* `scanFrom_position`: where a text begins shows in the wording of a failure and in nothing else.
-/

namespace Abacus

/-- One reading step of the scanner: a run with the sign fused to it, a symbol of the table, or a
parenthesis. -/
inductive Lexeme where
  | run (sign : Option Char) (digits : List Char)
  | symbol (op : Operator)
  | opening
  | closing

namespace Lexeme

/-- The characters of a lexeme. -/
def spelling : Lexeme → List Char
  | .run sign ds => sign.toList ++ ds
  | .symbol op   => [op.symbol]
  | .opening     => ['(']
  | .closing     => [')']

def token : Lexeme → Except Failure Token
  | .run sign ds => Token.ofLiteral (sign.toList ++ ds)
  | .symbol op   => .ok (.operator op.token)
  | .opening     => .ok .leftParen
  | .closing     => .ok .rightParen

/-- The text that lexemes write one after another. -/
def text (ls : List Lexeme) : List Char :=
  ls.flatMap spelling

@[simp] theorem text_nil : text [] = [] := rfl

@[simp] theorem text_cons (l : Lexeme) (ls : List Lexeme) :
    text (l :: ls) = l.spelling ++ text ls := List.flatMap_cons

@[simp] theorem text_append (ls ms : List Lexeme) : text (ls ++ ms) = text ls ++ text ms :=
  List.flatMap_append

end Lexeme

namespace Token

/-- Whether a text begins with a digit or a point. -/
def startsNumeric (cs : List Char) : Bool :=
  cs.head?.any isNumeric

@[simp] theorem startsNumeric_nil : startsNumeric [] = false := rfl

@[simp] theorem startsNumeric_cons (c : Char) (cs : List Char) :
    startsNumeric (c :: cs) = isNumeric c := rfl

/-- A run in front of what does not lengthen it is what the scanner takes. -/
theorem takeWhile_run {ds rest : List Char} (hd : ∀ c ∈ ds, isNumeric c = true)
    (hr : startsNumeric rest = false) :
    (ds ++ rest).takeWhile isNumeric = ds ∧ (ds ++ rest).dropWhile isNumeric = rest := by
  rw [List.takeWhile_append_of_pos hd, List.dropWhile_append_of_pos hd]
  cases rest with
  | nil => simp
  | cons c cs =>
      rw [startsNumeric_cons] at hr
      simp [hr]

theorem startsNumeric_dropWhile (cs : List Char) :
    startsNumeric (cs.dropWhile isNumeric) = false := by
  induction cs with
  | nil => rfl
  | cons c cs ih => by_cases hc : isNumeric c = true <;> simp [hc, ih]

theorem isEmpty_takeWhile (cs : List Char) :
    (cs.takeWhile isNumeric).isEmpty = !startsNumeric cs := by
  cases cs with
  | nil => rfl
  | cons c cs => by_cases hc : isNumeric c = true <;> simp [hc]

/-! ### One lexeme at a time -/

section Steps
variable {table : OperatorTable} {atPrefix : Bool} {position : Nat} {rest : List Char}

/-- A run is read as a literal, and what follows it is not at an operand's place. -/
theorem scanFrom_run {ds : List Char} (hne : ds ≠ []) (hd : ∀ c ∈ ds, isNumeric c = true)
    (hr : startsNumeric rest = false) :
    scanFrom table atPrefix position (ds ++ rest) = (do
      let t ← ofLiteral ds
      (t :: ·) <$> scanFrom table false (position + ds.length) rest) := by
  obtain ⟨c, cs, rfl⟩ := List.exists_cons_of_ne_nil hne
  obtain ⟨htake, hdrop⟩ := takeWhile_run (fun x hx => hd x (List.mem_cons_of_mem c hx)) hr
  have hc := hd c List.mem_cons_self
  rw [List.cons_append, scanFrom]
  simp only [hc, if_true, htake, hdrop, bind_pure_comp, List.length_cons]
  rw [Nat.add_assoc, Nat.add_comm 1]

/-- At an operand's place, a sign and the run behind it are read as one literal. -/
theorem scanFrom_signed {s : Char} {op : Operator} {ds : List Char} (hs : isSign s = true)
    (hop : table.find? s = some op) (hne : ds ≠ []) (hd : ∀ c ∈ ds, isNumeric c = true)
    (hr : startsNumeric rest = false) :
    scanFrom table true position (s :: ds ++ rest) = (do
      let t ← ofLiteral (s :: ds)
      (t :: ·) <$> scanFrom table false (position + 1 + ds.length) rest) := by
  obtain ⟨htake, hdrop⟩ := takeWhile_run hd hr
  rw [List.cons_append, scanFrom]
  simp [isNumeric_of_isSign hs, hop, hs, htake, hdrop, hne]

/-- A symbol is read as its operator, unless it is a sign that belongs to a run. -/
theorem scanFrom_symbol {op : Operator} (hn : isNumeric op.symbol = false)
    (hop : table.find? op.symbol = some op)
    (hfuse : (isSign op.symbol && atPrefix && startsNumeric rest) = false) :
    scanFrom table atPrefix position (op.symbol :: rest) =
      (.operator op.token :: ·) <$> scanFrom table true (position + 1) rest := by
  rw [scanFrom]
  simp [hn, hop, isEmpty_takeWhile, hfuse]

/-- A parenthesis that opens is followed by an operand's place. -/
theorem scanFrom_opening (hop : table.find? '(' = none) :
    scanFrom table atPrefix position ('(' :: rest) =
      (.leftParen :: ·) <$> scanFrom table true (position + 1) rest := by
  rw [scanFrom]
  simp [hop, show isNumeric '(' = false from by decide]

/-- A parenthesis that closes is not. -/
theorem scanFrom_closing (hop : table.find? ')' = none) :
    scanFrom table atPrefix position (')' :: rest) =
      (.rightParen :: ·) <$> scanFrom table false (position + 1) rest := by
  rw [scanFrom]
  simp [hop, show isNumeric ')' = false from by decide]

end Steps

end Token

/-! ### Whole texts -/

/-- Lexemes as the scanner reads them.  A run is as long as it can be; a sign belongs to the run
after it exactly when it stands where an operand begins, which the index says of the first
lexeme. -/
inductive Placed (table : OperatorTable) : Bool → List Lexeme → Prop where
  | nil {atPrefix : Bool} : Placed table atPrefix []
  | run {atPrefix : Bool} {ds : List Char} {ls : List Lexeme} (hne : ds ≠ [])
      (hd : ∀ c ∈ ds, Token.isNumeric c = true)
      (hr : Token.startsNumeric (Lexeme.text ls) = false) (h : Placed table false ls) :
      Placed table atPrefix (.run none ds :: ls)
  | signed {s : Char} {op : Operator} {ds : List Char} {ls : List Lexeme}
      (hs : Token.isSign s = true) (hop : table.find? s = some op) (hne : ds ≠ [])
      (hd : ∀ c ∈ ds, Token.isNumeric c = true)
      (hr : Token.startsNumeric (Lexeme.text ls) = false) (h : Placed table false ls) :
      Placed table true (.run (some s) ds :: ls)
  | symbol {atPrefix : Bool} {op : Operator} {ls : List Lexeme}
      (hn : Token.isNumeric op.symbol = false) (hop : table.find? op.symbol = some op)
      (hfuse : (Token.isSign op.symbol && atPrefix &&
        Token.startsNumeric (Lexeme.text ls)) = false)
      (h : Placed table true ls) : Placed table atPrefix (.symbol op :: ls)
  | opening {atPrefix : Bool} {ls : List Lexeme} (hop : table.find? '(' = none)
      (h : Placed table true ls) : Placed table atPrefix (.opening :: ls)
  | closing {atPrefix : Bool} {ls : List Lexeme} (hop : table.find? ')' = none)
      (h : Placed table false ls) : Placed table atPrefix (.closing :: ls)

namespace Token

/-- The tokens of a text are those of its lexemes. -/
theorem scanFrom_text {table : OperatorTable} {atPrefix : Bool} {ls : List Lexeme}
    (h : Placed table atPrefix ls) (position : Nat) :
    scanFrom table atPrefix position (Lexeme.text ls) = ls.mapM Lexeme.token := by
  induction h generalizing position with
  | nil => rw [Lexeme.text_nil, scanFrom]; rfl
  | run hne hd hr _ ih =>
      rw [Lexeme.text_cons, Lexeme.spelling, Option.toList_none, List.nil_append,
        scanFrom_run hne hd hr, ih, List.mapM_cons]
      simp [Lexeme.token]
  | signed hs hop hne hd hr _ ih =>
      rw [Lexeme.text_cons, Lexeme.spelling, Option.toList_some, List.singleton_append,
        scanFrom_signed hs hop hne hd hr, ih, List.mapM_cons]
      simp [Lexeme.token]
  | symbol hn hop hfuse _ ih =>
      rw [Lexeme.text_cons, Lexeme.spelling, List.singleton_append,
        scanFrom_symbol hn hop hfuse, ih, List.mapM_cons]
      simp [Lexeme.token]
  | opening hop _ ih =>
      rw [Lexeme.text_cons, Lexeme.spelling, List.singleton_append, scanFrom_opening hop, ih,
        List.mapM_cons]
      simp [Lexeme.token]
  | closing hop _ ih =>
      rw [Lexeme.text_cons, Lexeme.spelling, List.singleton_append, scanFrom_closing hop, ih,
        List.mapM_cons]
      simp [Lexeme.token]

/-- A text that has tokens is written by lexemes that have these tokens. -/
theorem exists_lexemes {table : OperatorTable} {atPrefix : Bool} {position : Nat}
    {cs : List Char} {ts : List Token} (h : scanFrom table atPrefix position cs = .ok ts) :
    ∃ ls, Placed table atPrefix ls ∧ Lexeme.text ls = cs ∧ ls.mapM Lexeme.token = .ok ts := by
  fun_induction scanFrom table atPrefix position cs generalizing ts with
  | case1 => cases h; exact ⟨[], .nil, rfl, rfl⟩
  | case2 b p c cs run _ hc =>
      rename_i ih
      subst run
      simp only [bind_pure_comp, Except.bind_eq_ok_iff, Except.map_eq_ok_iff] at h
      obtain ⟨t, ht, us, hus, rfl⟩ := h
      obtain ⟨ls, hp, htext, hls⟩ := ih hus
      refine ⟨.run none (c :: cs.takeWhile isNumeric) :: ls, .run (by simp) ?_ ?_ hp, ?_, ?_⟩
      · exact fun x hx => (List.mem_cons.mp hx).elim (· ▸ hc) List.mem_takeWhile_imp
      · rw [htext]; exact startsNumeric_dropWhile cs
      · rw [Lexeme.text_cons, htext]
        simp [Lexeme.spelling]
      · rw [List.mapM_cons, hls]
        simp [Lexeme.token, ht]
  | case3 b p c cs run _ hc op hop hfuse =>
      rename_i ih
      subst run
      simp only [bind_pure_comp, Except.bind_eq_ok_iff, Except.map_eq_ok_iff] at h
      obtain ⟨t, ht, us, hus, rfl⟩ := h
      obtain ⟨ls, hp, htext, hls⟩ := ih hus
      simp only [Bool.and_eq_true, Bool.not_eq_true', List.isEmpty_eq_false_iff] at hfuse
      obtain ⟨⟨hs, rfl⟩, hne⟩ := hfuse
      refine ⟨.run (some c) (cs.takeWhile isNumeric) :: ls,
        .signed hs hop hne (fun x hx => List.mem_takeWhile_imp hx) ?_ hp, ?_, ?_⟩
      · rw [htext]; exact startsNumeric_dropWhile cs
      · rw [Lexeme.text_cons, htext]
        simp [Lexeme.spelling]
      · rw [List.mapM_cons, hls]
        simp [Lexeme.token, ht]
  | case4 b p c cs run _ hc op hop hfuse =>
      rename_i ih
      subst run
      simp only [bind_pure_comp, Except.map_eq_ok_iff] at h
      obtain ⟨us, hus, rfl⟩ := h
      obtain ⟨ls, hp, htext, hls⟩ := ih hus
      obtain rfl : op.symbol = c := table.symbol_of_find? hop
      refine ⟨.symbol op :: ls, .symbol (by simpa using hc) hop ?_ hp, ?_, ?_⟩
      · rw [htext]
        simpa [isEmpty_takeWhile] using hfuse
      · rw [Lexeme.text_cons, htext]; rfl
      · rw [List.mapM_cons, hls]; rfl
  | case5 b p c cs _ hc hop hpar ih =>
      simp only [bind_pure_comp, Except.map_eq_ok_iff] at h
      obtain ⟨us, hus, rfl⟩ := h
      obtain ⟨ls, hp, htext, hls⟩ := ih hus
      obtain rfl := eq_of_beq hpar
      refine ⟨.opening :: ls, .opening hop hp, ?_, ?_⟩
      · rw [Lexeme.text_cons, htext]; rfl
      · rw [List.mapM_cons, hls]; rfl
  | case6 b p c cs _ hc hop _ hpar ih =>
      simp only [bind_pure_comp, Except.map_eq_ok_iff] at h
      obtain ⟨us, hus, rfl⟩ := h
      obtain ⟨ls, hp, htext, hls⟩ := ih hus
      obtain rfl := eq_of_beq hpar
      refine ⟨.closing :: ls, .closing hop hp, ?_, ?_⟩
      · rw [Lexeme.text_cons, htext]; rfl
      · rw [List.mapM_cons, hls]; rfl
  | case7 => cases h

end Token

/-- Whether a lexeme is one that the scanner can read: its sign is one, its digits are, and its
symbol is in the table. -/
def Lexeme.Valid (table : OperatorTable) : Lexeme → Prop
  | .run sign ds      => IsSigned sign ∧ ∀ c ∈ ds, Token.isNumeric c = true
  | .symbol op        => table.find? op.symbol = some op
  | .opening | .closing => True

/-- Lexemes that stand where they can be read are each valid. -/
theorem Placed.valid {table : OperatorTable} {atPrefix : Bool} {ls : List Lexeme}
    (h : Placed table atPrefix ls) : ∀ l ∈ ls, l.Valid table := by
  induction h with
  | nil => simp
  | run _ hd _ _ ih => exact List.forall_mem_cons.mpr ⟨⟨by simp [IsSigned], hd⟩, ih⟩
  | signed hs _ _ hd _ _ ih => exact List.forall_mem_cons.mpr ⟨⟨by simp [IsSigned, hs], hd⟩, ih⟩
  | symbol _ hop _ _ ih => exact List.forall_mem_cons.mpr ⟨hop, ih⟩
  | opening _ _ ih => exact List.forall_mem_cons.mpr ⟨trivial, ih⟩
  | closing _ _ ih => exact List.forall_mem_cons.mpr ⟨trivial, ih⟩

/-- A lexeme that the scanner can read, and its token. -/
def Lexeme.Spells (table : OperatorTable) (l : Lexeme) (t : Token) : Prop :=
  l.Valid table ∧ l.token = .ok t

namespace Lexeme.Spells
variable {table : OperatorTable} {l : Lexeme}

/-- A number is spelled by a literal alone, and is in range. -/
theorem number {v : Binary64} (h : l.Spells table (.number v)) :
    ∃ sign ds, l = .run sign ds ∧ IsSigned sign ∧ IsLiteral ds ∧ v.isFinite = true := by
  obtain ⟨hvalid, ht⟩ := h
  cases l with
  | run sign ds =>
      obtain ⟨hs, hd⟩ := hvalid
      obtain ⟨w, hw, hfin, ⟨⟩⟩ := Token.ofLiteral_eq_ok_iff.mp ht
      exact ⟨sign, ds, rfl, hs, (Binary64.ofFixed?_isSome_iff hs hd).mp (by rw [hw]; rfl), hfin⟩
  | symbol | opening | closing => cases ht

/-- An operator is spelled by its symbol alone. -/
theorem operator {op : OperatorToken} (h : l.Spells table (.operator op)) :
    ∃ entry, l = .symbol entry ∧ table.find? entry.symbol = some entry ∧ op = entry.token := by
  obtain ⟨hvalid, ht⟩ := h
  cases l with
  | run =>
      obtain ⟨_, -, -, ⟨⟩⟩ := Token.ofLiteral_eq_ok_iff.mp ht
  | symbol entry => cases ht; exact ⟨entry, rfl, hvalid, rfl⟩
  | opening | closing => cases ht

theorem leftParen (h : l.Spells table .leftParen) : l = .opening := by
  cases l with
  | run =>
      obtain ⟨_, -, -, ⟨⟩⟩ := Token.ofLiteral_eq_ok_iff.mp h.2
  | opening => rfl
  | symbol | closing => cases h.2

theorem rightParen (h : l.Spells table .rightParen) : l = .closing := by
  cases l with
  | run =>
      obtain ⟨_, -, -, ⟨⟩⟩ := Token.ofLiteral_eq_ok_iff.mp h.2
  | closing => rfl
  | symbol | opening => cases h.2

end Lexeme.Spells

/-- The tokens of a text are spelled by lexemes one by one. -/
theorem Token.exists_spells {table : OperatorTable} {atPrefix : Bool} {position : Nat}
    {cs : List Char} {ts : List Token} (h : scanFrom table atPrefix position cs = .ok ts) :
    ∃ ls, Placed table atPrefix ls ∧ Lexeme.text ls = cs ∧
      List.Forall₂ (Lexeme.Spells table) ls ts := by
  obtain ⟨ls, hp, htext, hls⟩ := exists_lexemes h
  exact ⟨ls, hp, htext,
    (List.forall₂_and_left ls ts).mpr ⟨hp.valid, Except.mapM_eq_ok_iff.mp hls⟩⟩

/-! ### Texts put together -/

namespace Token

/-- Whether a sign behind this token belongs to the number after it. -/
def opensOperand : Token → Bool
  | .operator _ | .leftParen => true
  | .number _ | .rightParen  => false

/-- Whether a sign behind these tokens belongs to the number after it. -/
def prefixAfter (atPrefix : Bool) (ts : List Token) : Bool :=
  ts.foldl (fun _ t => t.opensOperand) atPrefix

theorem prefixAfter_cons (atPrefix : Bool) (t : Token) (ts : List Token) :
    prefixAfter atPrefix (t :: ts) = prefixAfter t.opensOperand ts := rfl

/-- A run does not reach past a character of no run. -/
theorem takeWhile_append_stop {c : Char} (hc : isNumeric c = false) (cs rest : List Char) :
    (cs ++ c :: rest).takeWhile isNumeric = cs.takeWhile isNumeric ∧
      (cs ++ c :: rest).dropWhile isNumeric = cs.dropWhile isNumeric ++ c :: rest := by
  induction cs with
  | nil => simp [hc]
  | cons x xs ih => by_cases hx : isNumeric x = true <;> simp [hx, ih]

/-- Behind a literal no operand can begin. -/
theorem ofLiteral_opensOperand {cs : List Char} {t : Token} (h : ofLiteral cs = .ok t) :
    t.opensOperand = false := by
  obtain ⟨v, -, -, rfl⟩ := ofLiteral_eq_ok_iff.mp h
  rfl

/-- The run and the rest make up the text, so positions behind the run count on. -/
theorem length_run (cs : List Char) (position : Nat) :
    position + 1 + (cs.takeWhile isNumeric).length + (cs.dropWhile isNumeric).length =
      position + (cs.length + 1) := by
  have h := congrArg List.length (List.takeWhile_append_dropWhile (p := isNumeric) (l := cs))
  rw [List.length_append] at h
  omega

/-- Up to a character of no run, a text is scanned as if it ended there. -/
theorem scanFrom_append {table : OperatorTable} {atPrefix : Bool} {position : Nat}
    {cs : List Char} {c : Char} {rest : List Char} (hc : isNumeric c = false) :
    scanFrom table atPrefix position (cs ++ c :: rest) = (do
      let ts ← scanFrom table atPrefix position cs
      (ts ++ ·) <$>
        scanFrom table (prefixAfter atPrefix ts) (position + cs.length) (c :: rest)) := by
  fun_induction scanFrom table atPrefix position cs with
  | case1 => simp [prefixAfter]
  | case2 b p x cs run _ hx =>
      rename_i ih
      subst run
      obtain ⟨htake, hdrop⟩ := takeWhile_append_stop hc cs rest
      rw [List.cons_append, scanFrom]
      simp only [hx, if_true, htake, hdrop, ih, bind_pure_comp]
      cases ht : ofLiteral (x :: cs.takeWhile isNumeric) with
      | error f => rfl
      | ok t =>
          simp [prefixAfter_cons, ofLiteral_opensOperand ht, length_run]
  | case3 b p x cs run _ hx op hop hfuse =>
      rename_i ih
      subst run
      obtain ⟨htake, hdrop⟩ := takeWhile_append_stop hc cs rest
      rw [List.cons_append, scanFrom]
      simp only [hx, hop, hfuse, if_true, htake, hdrop, ih, bind_pure_comp]
      cases ht : ofLiteral (x :: cs.takeWhile isNumeric) with
      | error f => rfl
      | ok t =>
          simp [prefixAfter_cons, ofLiteral_opensOperand ht, length_run]
  | case4 b p x cs run _ hx op hop hfuse =>
      rename_i ih
      subst run
      obtain ⟨htake, -⟩ := takeWhile_append_stop hc cs rest
      rw [List.cons_append, scanFrom]
      simp only [hx, hop, hfuse, htake, ih, bind_pure_comp]
      simp [prefixAfter_cons, opensOperand, Nat.add_right_comm, Nat.add_assoc]
  | case5 b p x cs _ hx hop hpar ih =>
      rw [List.cons_append, scanFrom]
      simp only [hx, hop, hpar, if_true, ih, bind_pure_comp]
      simp [prefixAfter_cons, opensOperand, Nat.add_right_comm, Nat.add_assoc]
  | case6 b p x cs _ hx hop hopen hpar ih =>
      rw [List.cons_append, scanFrom]
      simp only [hx, hop, hopen, hpar, if_true, ih, bind_pure_comp]
      simp [prefixAfter_cons, opensOperand, Nat.add_right_comm, Nat.add_assoc]
  | case7 b p x cs _ hx hop hopen hpar =>
      rw [List.cons_append, scanFrom]
      simp [hx, hop, hopen, hpar]

/-- Where a text begins shows in the wording of a failure and in nothing else. -/
theorem scanFrom_position {table : OperatorTable} {atPrefix : Bool} {cs : List Char}
    (p q : Nat) :
    (scanFrom table atPrefix p cs).mapError Failure.kind =
      (scanFrom table atPrefix q cs).mapError Failure.kind := by
  fun_induction scanFrom table atPrefix p cs generalizing q with
  | case1 => rw [scanFrom]
  | case2 b p c cs run _ hc =>
      rename_i ih
      subst run
      conv_rhs => rw [scanFrom]
      simp only [hc, if_true, bind_pure_comp, Except.mapError_bind, Except.mapError_map,
        ih (q + 1 + (cs.takeWhile isNumeric).length)]
  | case3 b p c cs run _ hc op hop hfuse =>
      rename_i ih
      subst run
      conv_rhs => rw [scanFrom]
      simp only [hc, hop, hfuse, Bool.false_eq_true, if_false, if_true, bind_pure_comp,
        Except.mapError_bind, Except.mapError_map, ih (q + 1 + (cs.takeWhile isNumeric).length)]
  | case4 b p c cs run _ hc op hop hfuse =>
      rename_i ih
      subst run
      conv_rhs => rw [scanFrom]
      simp only [hc, hop, hfuse, Bool.false_eq_true, if_false, bind_pure_comp,
        Except.mapError_map, ih (q + 1)]
  | case5 b p c cs _ hc hop hpar ih =>
      conv_rhs => rw [scanFrom]
      simp only [hc, hop, hpar, Bool.false_eq_true, if_false, if_true, bind_pure_comp,
        Except.mapError_map, ih (q + 1)]
  | case6 b p c cs _ hc hop hopen hpar ih =>
      conv_rhs => rw [scanFrom]
      simp only [hc, hop, hopen, hpar, Bool.false_eq_true, if_false, if_true, bind_pure_comp,
        Except.mapError_map, ih (q + 1)]
  | case7 b p c cs _ hc hop hopen hpar =>
      rw [scanFrom]
      simp [hc, hop, hopen, hpar, Failure.kind]

end Token

end Abacus
