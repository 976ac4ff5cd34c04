import Abacus.Text.Character
import Abacus.Text.Lines

/-!
# Abacus — Text — Texts of one line

Lines that are written one after the other, each with a line feed behind it, are the lines that are
read (`lines_flatMap`), provided that none of them has a line end in it.  The lines of a text are
such lines (`isOneLine_of_mem_lines`).
-/

namespace Abacus.Text
variable {c : Char} {cs ds line : List Char}

/-- A text without a line end in it. -/
def IsOneLine (cs : List Char) : Prop :=
  ∀ c ∈ cs, isLineEnd c = false

-- by going through the list, and not through all characters
instance (cs : List Char) : Decidable (IsOneLine cs) :=
  List.decidableBAll (fun c => isLineEnd c = false) cs

theorem isOneLine_nil : IsOneLine [] := nofun

theorem isOneLine_cons : IsOneLine (c :: cs) ↔ isLineEnd c = false ∧ IsOneLine cs :=
  List.forall_mem_cons

theorem isOneLine_append : IsOneLine (cs ++ ds) ↔ IsOneLine cs ∧ IsOneLine ds :=
  List.forall_mem_append

theorem IsOneLine.subset (h : IsOneLine cs) (hsub : ds ⊆ cs) : IsOneLine ds :=
  fun c hc => h c (hsub hc)

theorem IsOneLine.reverse (h : IsOneLine cs) : IsOneLine cs.reverse :=
  h.subset (List.reverse_subset.mpr fun _ hc => hc)

/-- Blanks may be taken from a line. -/
theorem IsOneLine.trim (h : IsOneLine cs) : IsOneLine (trim cs) := by
  refine h.subset ?_
  unfold Text.trim stripEnds
  intro c hc
  have hc := (List.dropWhile_sublist _).subset (List.mem_reverse.mp hc)
  exact (List.dropWhile_sublist _).subset (List.mem_reverse.mp hc)

/-! ### Reading lines -/

/-- What is read as a line has no line end in it. -/
theorem isOneLine_of_mem_linesFrom {current : List Char} (hcurrent : IsOneLine current) :
    ∀ line ∈ linesFrom current cs, IsOneLine line := by
  fun_induction linesFrom current cs with
  | case1 => nofun
  | case2 current hempty =>
      intro line hline
      rw [List.mem_singleton.mp hline]
      exact hcurrent.reverse
  | case3 current cs ih => exact List.forall_mem_cons.mpr ⟨hcurrent.reverse, ih isOneLine_nil⟩
  | case4 current c cs hreturn hend ih =>
      exact List.forall_mem_cons.mpr ⟨hcurrent.reverse, ih isOneLine_nil⟩
  | case5 current c cs hreturn hend ih =>
      exact ih (isOneLine_cons.mpr ⟨by simpa using hend, hcurrent⟩)

/-- Without a carriage return, newlines are unified already. -/
theorem unifyNewlines_of_not_mem (h : '\r' ∉ cs) : unifyNewlines cs = cs := by
  fun_induction unifyNewlines cs <;> simp_all

theorem isOneLine_of_mem_lines (h : line ∈ lines cs) : IsOneLine line :=
  isOneLine_of_mem_linesFrom isOneLine_nil line h

end Abacus.Text
