import Mathlib.Data.List.DropRight
import Abacus.Proofs.Text.Lines

/-!
# Abacus — Text — Lines without the blanks around them

Every line end is a blank, so nothing but blanks is lost when a text is broken into lines, the
blanks around the lines are dropped and so are lines of blanks (`flatMap_withoutBlanks`).  What
stays is told by three equations: a line end divides the text (`trimmedLines_append`), one line
stays without the blanks around it (`trimmedLines_of_isOneLine`), and how newlines are written is of
no account (`trimmedLines_unifyNewlines`).

* `ofOne_iff`: two characters stay together exactly when no line end stands between them.
* `trimmedLines_flatMap`, `trimmedLines_intercalate`: lines that are written again are read as they
  are.
-/

namespace Abacus.Text
variable {c d x : Char} {cs a b e line : List Char}

/-! ### Blanks -/

theorem isLineEnd_return : isLineEnd '\r' = true := rfl

theorem isLineEnd_feed : isLineEnd '\n' = true := rfl

theorem isBlank_of_isLineEnd (h : isLineEnd c = true) : isBlank c = true := by
  simp only [isLineEnd, List.contains_iff_mem, List.mem_cons, List.not_mem_nil, or_false] at h
  simp only [isBlank, isSpace, within, spaceRanges, List.any_cons, List.any_nil, Bool.or_eq_true,
    Bool.and_eq_true, decide_eq_true_eq, Bool.or_false]
  omega

theorem isLineEnd_of_not_blank (h : isBlank c = false) : isLineEnd c = false := by
  by_contra hend
  rw [isBlank_of_isLineEnd (by simpa using hend)] at h
  cases h

@[simp] theorem withoutBlanks_nil : withoutBlanks [] = [] := rfl

@[simp] theorem withoutBlanks_append (cs ds : List Char) :
    withoutBlanks (cs ++ ds) = withoutBlanks cs ++ withoutBlanks ds := List.filter_append ..

theorem withoutBlanks_cons_of_blank (h : isBlank c = true) :
    withoutBlanks (c :: cs) = withoutBlanks cs :=
  List.filter_cons_of_neg (by simp [h])

theorem withoutBlanks_cons_of_not_blank (h : isBlank c = false) :
    withoutBlanks (c :: cs) = c :: withoutBlanks cs :=
  List.filter_cons_of_pos (by simp [h])

theorem withoutBlanks_reverse (cs : List Char) :
    withoutBlanks cs.reverse = (withoutBlanks cs).reverse := List.filter_reverse ..

theorem withoutBlanks_dropWhile (cs : List Char) :
    withoutBlanks (cs.dropWhile isBlank) = withoutBlanks cs := by
  induction cs with
  | nil => rfl
  | cons c cs ih =>
      by_cases hc : isBlank c = true
      · rw [List.dropWhile_cons_of_pos hc, ih, withoutBlanks_cons_of_blank hc]
      · rw [List.dropWhile_cons_of_neg hc]

/-- What is trimmed away are blanks. -/
theorem withoutBlanks_trim (cs : List Char) : withoutBlanks (trim cs) = withoutBlanks cs := by
  rw [trim, stripEnds, withoutBlanks_reverse, withoutBlanks_dropWhile, withoutBlanks_reverse,
    List.reverse_reverse, withoutBlanks_dropWhile]

theorem trim_eq_rdropWhile (cs : List Char) :
    trim cs = (cs.dropWhile isBlank).rdropWhile isBlank := rfl

/-- Nothing is left of a line when it is blank. -/
theorem trim_eq_nil_iff : trim cs = [] ↔ withoutBlanks cs = [] := by
  constructor
  · intro h
    rw [← withoutBlanks_trim, h, withoutBlanks_nil]
  · intro h
    have hall : ∀ c ∈ cs, isBlank c = true := by simpa [withoutBlanks] using h
    rw [trim_eq_rdropWhile, List.dropWhile_eq_nil_iff.mpr hall, List.rdropWhile_nil]

/-- A line as it stays: not empty, with no blank at its ends and no line end in it. -/
structure IsTrimmedLine (cs : List Char) : Prop where
  ne_nil : cs ≠ []
  head : ∀ c ∈ cs.head?, isBlank c = false
  getLast : ∀ c ∈ cs.getLast?, isBlank c = false
  isOneLine : IsOneLine cs

/-- What is left of a line that is not blank is trimmed. -/
theorem isTrimmedLine_trim (h : IsOneLine cs) (hne : trim cs ≠ []) : IsTrimmedLine (trim cs) := by
  refine ⟨hne, fun c hc => ?_, fun c hc => ?_, h.trim⟩
  · -- the first character is the first one that is left at the front
    obtain ⟨back, hback⟩ := List.rdropWhile_prefix isBlank (cs.dropWhile isBlank)
    rw [← trim_eq_rdropWhile] at hback
    have hhead := List.head?_dropWhile_not isBlank cs
    rw [← hback, List.head?_append_of_ne_nil _ hne, hc] at hhead
    simpa using hhead
  · have hlast := List.head?_dropWhile_not isBlank (cs.dropWhile isBlank).reverse
    rw [trim, stripEnds, List.getLast?_reverse] at hc
    rw [hc] at hlast
    simpa using hlast

theorem IsTrimmedLine.trim_eq (h : IsTrimmedLine cs) : trim cs = cs := by
  obtain ⟨c, rest, rfl⟩ := List.exists_cons_of_ne_nil h.ne_nil
  have hc : isBlank c = false := h.head c rfl
  rw [trim_eq_rdropWhile, List.dropWhile_cons_of_neg (by simp [hc]), List.rdropWhile_eq_self_iff]
  intro hne
  simpa using h.getLast _ (List.getLast?_eq_getLast_of_ne_nil hne)

/-! ### Breaking a text into lines -/

/-- The line without the blanks around it, if anything is left. -/
def trimmedLine (line : List Char) : List (List Char) :=
  [trim line].filter fun l => !l.isEmpty

/-- The lines of a text without the blanks around them, lines of blanks left out. -/
def trimmedLinesFrom (current cs : List Char) : List (List Char) :=
  ((linesFrom current cs).map trim).filter fun l => !l.isEmpty

def trimmedLines (cs : List Char) : List (List Char) :=
  trimmedLinesFrom [] cs

theorem trimmedLine_nil : trimmedLine [] = [] := rfl

theorem trimmedLine_of_ne_nil (h : withoutBlanks line ≠ []) : trimmedLine line = [trim line] := by
  rw [trimmedLine, List.filter_cons_of_pos, List.filter_nil]
  simpa [trim_eq_nil_iff] using h

/-- Trimming a line loses blanks only. -/
theorem flatMap_withoutBlanks_trimmedLine (line : List Char) :
    (trimmedLine line).flatMap withoutBlanks = withoutBlanks line := by
  by_cases h : withoutBlanks line = []
  · rw [trimmedLine, trim_eq_nil_iff.mpr h, h]
    rfl
  · rw [trimmedLine_of_ne_nil h, List.flatMap_singleton, withoutBlanks_trim]

theorem trimmedLinesFrom_nil (current : List Char) :
    trimmedLinesFrom current [] = trimmedLine current.reverse := by
  unfold trimmedLinesFrom linesFrom
  cases current with
  | nil => rfl
  | cons c current => rfl

theorem filter_map_trim_cons (line : List Char) (ls : List (List Char)) :
    ((line :: ls).map trim).filter (fun l => !l.isEmpty) =
      trimmedLine line ++ (ls.map trim).filter fun l => !l.isEmpty := by
  rw [← List.singleton_append, List.map_append, List.filter_append]
  rfl

/-- A line end ends the line that has been begun; of `\r\n` each may be taken to end one. -/
theorem trimmedLinesFrom_cons (current : List Char) (c : Char) (cs : List Char) :
    trimmedLinesFrom current (c :: cs) =
      if isLineEnd c then trimmedLine current.reverse ++ trimmedLines cs
      else trimmedLinesFrom (c :: current) cs := by
  by_cases hpair : ∃ rest, c = '\r' ∧ cs = '\n' :: rest
  · obtain ⟨rest, rfl, rfl⟩ := hpair
    have hfeed : linesFrom [] ('\n' :: rest) = [] :: linesFrom [] rest := by
      rw [linesFrom, if_pos isLineEnd_feed, List.reverse_nil]
      exact fun _ h => absurd h (by decide)
    rw [if_pos isLineEnd_return, trimmedLines, trimmedLinesFrom, trimmedLinesFrom, linesFrom, hfeed,
      filter_map_trim_cons, filter_map_trim_cons, trimmedLine_nil, List.nil_append]
  · have hline : linesFrom current (c :: cs) =
        if isLineEnd c then current.reverse :: linesFrom [] cs
        else linesFrom (c :: current) cs := by
      rw [linesFrom]
      exact fun rest hc hcs => hpair ⟨rest, hc, hcs⟩
    rw [trimmedLinesFrom, hline]
    split
    · exact filter_map_trim_cons ..
    · rfl

/-- A line end cuts a text, and both sides are broken on their own. -/
theorem trimmedLinesFrom_append (hx : isLineEnd x = true) (current a e : List Char) :
    trimmedLinesFrom current (a ++ x :: e) = trimmedLinesFrom current a ++ trimmedLines e := by
  induction a generalizing current with
  | nil => rw [List.nil_append, trimmedLinesFrom_cons, if_pos hx, trimmedLinesFrom_nil]
  | cons y a ih =>
      rw [List.cons_append, trimmedLinesFrom_cons, trimmedLinesFrom_cons]
      split
      · rw [trimmedLines, ih, List.append_assoc]
        rfl
      · exact ih _

/-- A line end divides a text. -/
theorem trimmedLines_append (hx : isLineEnd x = true) (a e : List Char) :
    trimmedLines (a ++ x :: e) = trimmedLines a ++ trimmedLines e :=
  trimmedLinesFrom_append hx [] a e

/-- Without a line end there is one line at most. -/
theorem trimmedLinesFrom_of_isOneLine (h : IsOneLine line) (current : List Char) :
    trimmedLinesFrom current line = trimmedLine (current.reverse ++ line) := by
  induction line generalizing current with
  | nil => rw [trimmedLinesFrom_nil, List.append_nil]
  | cons c line ih =>
      obtain ⟨hc, hline⟩ := isOneLine_cons.mp h
      rw [trimmedLinesFrom_cons, if_neg (by simp [hc]), ih hline]
      simp

theorem trimmedLines_of_isOneLine (h : IsOneLine line) : trimmedLines line = trimmedLine line :=
  trimmedLinesFrom_of_isOneLine h []

/-- How newlines are written is of no account. -/
theorem trimmedLines_unifyNewlines (cs : List Char) :
    trimmedLines (unifyNewlines cs) = trimmedLines cs := by
  suffices h : ∀ current,
      trimmedLinesFrom current (unifyNewlines cs) = trimmedLinesFrom current cs from h []
  fun_induction unifyNewlines cs with
  | case1 => exact fun _ => rfl
  | case2 cs ih =>
      intro current
      simp only [trimmedLinesFrom_cons, trimmedLines, isLineEnd_return, isLineEnd_feed, if_true, ih,
        List.reverse_nil, trimmedLine_nil, List.nil_append]
  | case3 cs _ ih =>
      intro current
      simp only [trimmedLinesFrom_cons, trimmedLines, isLineEnd_return, isLineEnd_feed, if_true, ih]
  | case4 c cs _ _ ih =>
      intro current
      simp only [trimmedLinesFrom_cons, trimmedLines, ih]

/-- Nothing but blanks is lost. -/
theorem flatMap_withoutBlanks (cs : List Char) :
    (trimmedLines cs).flatMap withoutBlanks = withoutBlanks cs := by
  suffices h : ∀ current, (trimmedLinesFrom current cs).flatMap withoutBlanks =
      withoutBlanks current.reverse ++ withoutBlanks cs from h []
  induction cs with
  | nil =>
      intro current
      rw [trimmedLinesFrom_nil, flatMap_withoutBlanks_trimmedLine, withoutBlanks_nil,
        List.append_nil]
  | cons c cs ih =>
      intro current
      rw [trimmedLinesFrom_cons]
      split
      · next hc =>
          rw [List.flatMap_append, flatMap_withoutBlanks_trimmedLine, trimmedLines, ih,
            withoutBlanks_cons_of_blank (isBlank_of_isLineEnd hc)]
          rfl
      · rw [ih, List.reverse_cons, withoutBlanks_append, List.append_assoc, ← withoutBlanks_append]
        rfl

theorem isTrimmedLine_of_mem (h : line ∈ trimmedLines cs) : IsTrimmedLine line := by
  obtain ⟨hmem, hne⟩ := List.mem_filter.mp h
  obtain ⟨whole, hwhole, rfl⟩ := List.mem_map.mp hmem
  exact isTrimmedLine_trim (isOneLine_of_mem_lines hwhole) (by simpa using hne)

/-! ### Characters of one line -/

/-- The `i`-th and the `j`-th character of these texts, counted through all of them, stand in one
text, the `i`-th not behind the `j`-th. -/
def OfOne (texts : List (List Char)) (i j : ℕ) : Prop :=
  ∃ before text after, texts = before ++ text :: after ∧
    before.flatten.length ≤ i ∧ i ≤ j ∧ j < before.flatten.length + text.length

theorem exists_first_lineEnd (h : ¬ IsOneLine cs) :
    ∃ front x back, cs = front ++ x :: back ∧ isLineEnd x = true ∧ IsOneLine front := by
  induction cs with
  | nil => exact absurd isOneLine_nil h
  | cons c cs ih =>
      by_cases hc : isLineEnd c = true
      · exact ⟨[], c, cs, rfl, hc, isOneLine_nil⟩
      · have hc : isLineEnd c = false := by simpa using hc
        obtain ⟨front, x, back, rfl, hx, hfront⟩ := ih fun hcs => h (isOneLine_cons.mpr ⟨hc, hcs⟩)
        exact ⟨c :: front, x, back, rfl, hx, isOneLine_cons.mpr ⟨hc, hfront⟩⟩

theorem exists_last_lineEnd (h : ¬ IsOneLine cs) :
    ∃ front x back, cs = front ++ x :: back ∧ isLineEnd x = true ∧ IsOneLine back := by
  have hrev : ¬ IsOneLine cs.reverse := fun hrev => h (by simpa using hrev.reverse)
  obtain ⟨front, x, back, hcs, hx, hfront⟩ := exists_first_lineEnd hrev
  refine ⟨back.reverse, x, front.reverse, ?_, hx, hfront.reverse⟩
  rw [← List.reverse_inj, hcs]
  simp

/-- A part of one line stands in one of the lines, behind the lines before it. -/
theorem exists_trimmedLines_append (hline : IsOneLine line) (hne : withoutBlanks line ≠ [])
    (a e : List Char) : ∃ before front back after,
      trimmedLines (a ++ (line ++ e)) = before ++ trim (front ++ (line ++ back)) :: after ∧
        before.flatMap withoutBlanks ++ withoutBlanks front = withoutBlanks a := by
  -- what follows
  have hbehind : ∃ back after, ∀ front, IsOneLine front →
      trimmedLines (front ++ (line ++ e)) = trim (front ++ (line ++ back)) :: after := by
    have hkept {front back : List Char} (hfront : IsOneLine front) (hback : IsOneLine back) :
        trimmedLines (front ++ (line ++ back)) = [trim (front ++ (line ++ back))] := by
      rw [trimmedLines_of_isOneLine
        (isOneLine_append.mpr ⟨hfront, isOneLine_append.mpr ⟨hline, hback⟩⟩)]
      exact trimmedLine_of_ne_nil (by simp [hne])
    by_cases he : IsOneLine e
    · exact ⟨e, [], fun front hfront => hkept hfront he⟩
    · obtain ⟨back, x, rest, rfl, hx, hback⟩ := exists_first_lineEnd he
      refine ⟨back, trimmedLines rest, fun front hfront => ?_⟩
      rw [← List.append_assoc, ← List.append_assoc, trimmedLines_append hx, List.append_assoc,
        hkept hfront hback]
      rfl
  obtain ⟨back, after, hbehind⟩ := hbehind
  by_cases ha : IsOneLine a
  · exact ⟨[], a, back, after, hbehind a ha, rfl⟩
  · obtain ⟨past, x, front, rfl, hx, hfront⟩ := exists_last_lineEnd ha
    refine ⟨trimmedLines past, front, back, after, ?_, ?_⟩
    · rw [List.append_assoc, List.cons_append, trimmedLines_append hx, hbehind front hfront]
    · rw [flatMap_withoutBlanks, withoutBlanks_append,
        withoutBlanks_cons_of_blank (isBlank_of_isLineEnd hx)]

/-- A line end between two characters divides the lines, and no line has a part on both sides. -/
theorem isOneLine_of_ofOne (hc : isBlank c = false)
    (h : OfOne ((trimmedLines (a ++ c :: (b ++ d :: e))).map withoutBlanks)
      (withoutBlanks a).length (withoutBlanks (a ++ c :: b)).length) : IsOneLine b := by
  by_contra hb
  obtain ⟨before, text, after, htexts, hbefore, -, hafter⟩ := h
  obtain ⟨front, x, back, rfl, hx, hfront⟩ := exists_first_lineEnd hb
  have hsplit : a ++ c :: (front ++ x :: back ++ d :: e) =
      (a ++ c :: front) ++ x :: (back ++ d :: e) := by simp
  -- the lines before the line end hold all that stands before it
  have hleft := congrArg List.length (flatMap_withoutBlanks (a ++ c :: front))
  rw [hsplit, trimmedLines_append hx, List.map_append] at htexts
  rw [List.flatMap_def] at hleft
  simp only [withoutBlanks_append, withoutBlanks_cons_of_not_blank hc, List.length_append,
    List.length_cons] at hleft hafter
  rcases List.append_eq_append_iff.mp htexts with ⟨mid, rfl, hmid⟩ | ⟨mid, hmid, hrest⟩
  · rw [List.flatten_append, List.length_append] at hbefore
    omega
  · cases mid with
    | nil =>
        rw [hmid, List.append_nil] at hleft
        omega
    | cons y mid =>
        obtain ⟨rfl, -⟩ := List.cons.inj hrest
        rw [hmid] at hleft
        simp only [List.flatten_append, List.flatten_cons, List.length_append] at hleft
        omega

/-- Two characters with no line end between them come to the same line. -/
theorem ofOne_of_isOneLine (hc : isBlank c = false) (hd : isBlank d = false) (hb : IsOneLine b) :
    OfOne ((trimmedLines (a ++ c :: (b ++ d :: e))).map withoutBlanks)
      (withoutBlanks a).length (withoutBlanks (a ++ c :: b)).length := by
  have hline : IsOneLine (c :: (b ++ [d])) := isOneLine_cons.mpr
    ⟨isLineEnd_of_not_blank hc, isOneLine_append.mpr
      ⟨hb, isOneLine_cons.mpr ⟨isLineEnd_of_not_blank hd, isOneLine_nil⟩⟩⟩
  have hne : withoutBlanks (c :: (b ++ [d])) ≠ [] := by
    rw [withoutBlanks_cons_of_not_blank hc]
    nofun
  obtain ⟨before, front, back, after, htexts, hbefore⟩ := exists_trimmedLines_append hline hne a e
  have hwhole : a ++ c :: (b ++ d :: e) = a ++ (c :: (b ++ [d]) ++ e) := by simp
  have hlength := congrArg List.length hbefore
  rw [List.length_append, List.flatMap_def] at hlength
  rw [hwhole, htexts]
  refine ⟨before.map withoutBlanks, withoutBlanks (trim (front ++ (c :: (b ++ [d]) ++ back))),
    after.map withoutBlanks, by simp, by omega, ?_, ?_⟩
  · simp
  · simp only [withoutBlanks_trim, withoutBlanks_append, withoutBlanks_cons_of_not_blank hc,
      withoutBlanks_cons_of_not_blank hd, List.cons_append, List.length_append, List.length_cons]
    omega

/-- Two characters stay in one line exactly when no line end stands between them. -/
theorem ofOne_iff (hc : isBlank c = false) (hd : isBlank d = false) :
    OfOne ((trimmedLines (a ++ c :: (b ++ d :: e))).map withoutBlanks) (withoutBlanks a).length
        (withoutBlanks (a ++ c :: b)).length ↔ IsOneLine b :=
  ⟨isOneLine_of_ofOne hc, ofOne_of_isOneLine hc hd⟩

/-! ### Writing lines -/

section Written
variable {ls : List (List Char)}

theorem IsTrimmedLine.trimmedLines_eq (h : IsTrimmedLine line) : trimmedLines line = [line] := by
  rw [trimmedLines_of_isOneLine h.isOneLine, trimmedLine, h.trim_eq, List.filter_cons_of_pos,
    List.filter_nil]
  simpa using h.ne_nil

/-- Trimmed lines come back from a text where each of them is ended. -/
theorem trimmedLines_flatMap (h : ∀ line ∈ ls, IsTrimmedLine line) :
    trimmedLines (ls.flatMap (· ++ ['\n'])) = ls := by
  induction ls with
  | nil => rfl
  | cons line ls ih =>
      obtain ⟨hline, hls⟩ := List.forall_mem_cons.mp h
      rw [List.flatMap_cons, List.append_assoc, List.singleton_append,
        trimmedLines_append isLineEnd_feed, hline.trimmedLines_eq, ih hls]
      rfl

/-- So they do from one where they are only separated. -/
theorem trimmedLines_intercalate (h : ∀ line ∈ ls, IsTrimmedLine line) :
    trimmedLines (['\n'].intercalate ls) = ls := by
  induction ls with
  | nil => rfl
  | cons line ls ih =>
      obtain ⟨hline, hls⟩ := List.forall_mem_cons.mp h
      cases ls with
      | nil => rw [List.intercalate_singleton, hline.trimmedLines_eq]
      | cons next ls =>
          rw [List.intercalate_cons_cons, List.append_assoc, List.singleton_append,
            trimmedLines_append isLineEnd_feed, hline.trimmedLines_eq, ih hls]
          rfl

end Written

end Abacus.Text
