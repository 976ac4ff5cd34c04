import Abacus.Proofs.Display.Canonical
import Abacus.Proofs.Session.Percent
import Abacus.Proofs.Session.Runs

/-!
# Abacus — Session — Typing and taking it back

A character that is typed joins the buffer, unless it is a digit beside a lone zero, whose place it
takes (`appended_of_digit`, `appended_of_not_digit`).  Either way one step back gives the buffer as
it was (`backspace_append`), so that a text is taken back by as many steps as it has characters.  No
call leaves the buffer empty (`buffer_ne_of_perform`).
-/

namespace Abacus

namespace Session

/-- The session after characters have been typed one by one. -/
def typeEach (s : Session) (cs : List Char) : Session :=
  cs.foldl (fun s c => s.append (String.singleton c)) s

/-- What a buffer shows when characters have been typed behind it.  Zeros do not show beside a lone
zero, and the next digit takes its place. -/
def shownBehind (buffer : String) (cs : List Char) : List Char :=
  if buffer = emptyBuffer then
    let rest := cs.dropWhile (· == '0')
    if rest.head?.any Text.isDigit then rest else '0' :: rest
  else buffer.toList ++ cs

/-! ### One character -/

section Character
variable {s : Session} {buffer : String} {c : Char}

theorem isDigits_singleton (c : Char) :
    Text.isDigits (String.singleton c).toList = Text.isDigit c := by
  simp [Text.isDigits]

/-- A digit takes the place of a lone zero. -/
theorem appended_of_digit (h : Text.isDigit c = true) :
    appended emptyBuffer (String.singleton c) = String.singleton c := by
  rw [appended, isDigits_singleton, h]
  rfl

/-- Any other character, and any character beside another buffer, is put behind. -/
theorem appended_of_not_digit (h : ¬ (buffer = emptyBuffer ∧ Text.isDigit c = true)) :
    appended buffer (String.singleton c) = buffer ++ String.singleton c := by
  rw [appended, isDigits_singleton, if_neg]
  rwa [Bool.and_eq_true, beq_iff_eq]

theorem shortened_singleton (c : Char) : shortened (String.singleton c) = emptyBuffer := by
  simp [shortened]

theorem shortened_of_ne_nil (h : buffer.toList.dropLast ≠ []) :
    shortened buffer = String.ofList buffer.toList.dropLast := by
  rw [shortened]
  split
  · contradiction
  · rfl

/-- Backspace takes back the last character. -/
theorem shortened_append_singleton (h : buffer ≠ "") (c : Char) :
    shortened (buffer ++ String.singleton c) = buffer := by
  have hdrop : (buffer ++ String.singleton c).toList.dropLast = buffer.toList := by simp
  have hne : buffer.toList ≠ [] := mt String.toList_eq_nil_iff.mp h
  rw [shortened_of_ne_nil (hdrop ▸ hne), hdrop, String.ofList_toList]

/-- One step back undoes one character. -/
theorem backspace_append (h : s.buffer ≠ "") (c : Char) :
    (s.append (String.singleton c)).backspace = s := by
  obtain ⟨buffer, preferences, history⟩ := s
  show (⟨shortened (appended buffer _), preferences, history⟩ : Session) = _
  congr 1
  by_cases hdigit : buffer = emptyBuffer ∧ Text.isDigit c = true
  · obtain ⟨rfl, hdigit⟩ := hdigit
    rw [appended_of_digit hdigit, shortened_singleton]
  · rw [appended_of_not_digit hdigit, shortened_append_singleton h]

end Character

/-! ### No call empties the buffer -/

section NeverEmpty
variable {s : Session} {d : Desk} {buffer : String}

theorem appended_ne (h : buffer ≠ "") (text : String) : appended buffer text ≠ "" := by
  unfold appended
  split_ifs with hdigits
  · rintro rfl
    simp [Text.isDigits] at hdigits
  · rw [Ne, String.append_eq_empty_iff]
    exact fun hempty => h hempty.1

theorem shortened_ne (buffer : String) : shortened buffer ≠ "" := by
  by_cases hlast : buffer.toList.dropLast = []
  · rw [shortened, hlast]
    decide
  · rw [shortened_of_ne_nil hlast, Ne, String.ofList_eq_empty_iff]
    exact hlast

/-- A number that is shown has a digit at least. -/
theorem display_ne {v : Binary64} (hfinite : v.isFinite = true) : v.display ≠ "" := by
  obtain ⟨cs, hdisplay, hform⟩ := Binary64.exists_form hfinite
  have hcs : cs ≠ [] := by
    obtain ⟨-, ⟨ws, fs, rfl, hws, -⟩, -⟩ | ⟨-, c, fs, sign, es, rfl, -⟩ := hform
    · simp [hws.ne_nil]
    · simp
  rw [hdisplay, Ne, String.ofList_eq_empty_iff]
  cases v.isNegative && !v.isZero <;> simp [withSign, hcs]

/-- A session leaves the buffer as it is or puts a number there that is shown. -/
theorem scaled_buffer_ne {c : Calculation} (h : s.buffer ≠ "")
    (hc : Abacus.calculate .arithmetic s.buffer = .ok c) : (s.scaled c.outcome).2.buffer ≠ "" := by
  unfold scaled
  split
  · exact h
  · exact display_ne (Binary64.isFinite_div_hundred (isFinite_of_calculate hc ‹_›))

/-- A change of preferences does not touch the buffer. -/
theorem changing_buffer_ne (h : s.buffer ≠ "") (next : Except PreferencesFailure Preferences)
    (d : Desk) : ((s.changing (s.preferences.change next)).runAt d).1.2.buffer ≠ "" := by
  rw [runAt_changing]
  cases next <;> exact h

/-- What each call makes of a buffer that is not empty. -/
theorem buffer_ne_of_perform (h : s.buffer ≠ "") (d : Desk) (c : Call) :
    ((s.perform c).runAt d).1.2.buffer ≠ "" := by
  cases c with
  | append text => exact appended_ne h text
  | backspace => exact shortened_ne s.buffer
  | clear => exact (by decide : emptyBuffer ≠ "")
  | percent =>
      obtain ⟨c, hc⟩ := exists_calculate s.buffer
      rw [runAt_perform_percent hc]
      exact scaled_buffer_ne h hc
  | evaluate text =>
      obtain ⟨c, hc⟩ := exists_calculate (text.getD s.buffer)
      rw [runAt_perform_evaluate hc]
      exact h
  | chooseTheme v => exact changing_buffer_ne h _ d
  | switchTheme => exact changing_buffer_ne h (.ok s.preferences.preferences.switchTheme) d
  | choosePrecision v => exact changing_buffer_ne h _ d

/-- No run ends on an empty buffer, nor does any part of it. -/
theorem buffer_ne_of_run (h : s.buffer ≠ "") (d : Desk) (calls : List Call) :
    (s.run d calls).2.1.buffer ≠ "" := by
  induction calls generalizing s d with
  | nil => exact h
  | cons c calls ih => exact ih (buffer_ne_of_perform h d c) _

end NeverEmpty

/-! ### Many characters -/

section Characters
variable {s : Session} {buffer : String}

/-- As many steps back as characters. -/
theorem backspace_iterate_typeEach (h : s.buffer ≠ "") (cs : List Char) :
    backspace^[cs.length] (s.typeEach cs) = s := by
  induction cs generalizing s with
  | nil => rfl
  | cons c cs ih =>
      have happend : (s.append (String.singleton c)).buffer ≠ "" := appended_ne h _
      rw [List.length_cons, Function.iterate_succ_apply']
      exact (congrArg backspace (ih happend)).trans (backspace_append h c)

/-- Only a text of one character shows as a lone zero. -/
theorem append_singleton_ne (h : buffer ≠ "") (c : Char) :
    buffer ++ String.singleton c ≠ emptyBuffer := by
  intro heq
  have hlength := congrArg String.length heq
  rw [String.length_append, String.length_singleton] at hlength
  exact h (String.length_eq_zero_iff.mp (Nat.succ.inj hlength))

theorem shownBehind_of_ne (h : buffer ≠ emptyBuffer) (cs : List Char) :
    shownBehind buffer cs = buffer.toList ++ cs :=
  if_neg h

/-- The characters show one by one as they do all at once. -/
theorem shownBehind_cons (h : buffer ≠ "") (c : Char) (cs : List Char) :
    shownBehind (appended buffer (String.singleton c)) cs = shownBehind buffer (c :: cs) := by
  by_cases hdigit : buffer = emptyBuffer ∧ Text.isDigit c = true
  · obtain ⟨rfl, hdigit⟩ := hdigit
    rw [appended_of_digit hdigit]
    by_cases hc : c = '0'
    · subst hc
      rfl
    · have hother : String.singleton c ≠ emptyBuffer := fun heq =>
        hc (by simpa [emptyBuffer] using congrArg String.toList heq)
      simp [shownBehind, hother, hc, hdigit]
  · rw [appended_of_not_digit hdigit, shownBehind_of_ne (append_singleton_ne h c)]
    by_cases hzero : buffer = emptyBuffer
    · subst hzero
      have hdigit : Text.isDigit c = false := by simpa using hdigit
      have hc : c ≠ '0' := by
        rintro rfl
        exact absurd hdigit (by decide)
      simp [shownBehind, hc, hdigit, emptyBuffer]
    · rw [shownBehind_of_ne hzero]
      simp

/-- Typing one by one shows all that was typed, the zero at the start apart. -/
theorem toList_buffer_typeEach (h : s.buffer ≠ "") (cs : List Char) :
    (s.typeEach cs).buffer.toList = shownBehind s.buffer cs := by
  induction cs generalizing s with
  | nil =>
      show s.buffer.toList = shownBehind s.buffer []
      by_cases hzero : s.buffer = emptyBuffer
      · rw [hzero]
        rfl
      · simp [shownBehind_of_ne hzero]
  | cons c cs ih =>
      have happend : (s.append (String.singleton c)).buffer ≠ "" := appended_ne h _
      exact (ih happend).trans (shownBehind_cons h c cs)

end Characters

end Session

/-- **Typing is taken back character by character, and the buffer is never empty.**  When the
characters of a text are typed behind a buffer that is not empty, they show behind it, but for
digits that take the place of a lone zero; and as many steps back as there are characters give the
session as it was.  A session opens with a buffer that is not empty, and it is not empty after any
calls. -/
theorem typing_taken_back :
    (∀ (s : Session) (text : String), s.buffer ≠ "" →
      (s.typeEach text.toList).buffer.toList = Session.shownBehind s.buffer text.toList ∧
      Session.backspace^[text.length] (s.typeEach text.toList) = s) ∧
    ∀ (place : Option Path) (d e : Desk) (s : Session),
      (Session.openAt place).runAt d = (.ok s, e) →
      ∀ calls : List Call, (s.run e calls).2.1.buffer ≠ "" := by
  refine ⟨fun s text h => ⟨Session.toList_buffer_typeEach h _, ?_⟩, ?_⟩
  · rw [← String.length_toList]
    exact Session.backspace_iterate_typeEach h _
  · intro place d e s hopen calls
    obtain ⟨hbuffer, -⟩ := Session.openAt_eq_ok hopen
    have hempty : s.buffer ≠ "" := hbuffer ▸ (by decide)
    exact Session.buffer_ne_of_run hempty e calls

/-- Two zeros that do not show, a superscript that takes the place of the lone zero, and a letter;
and a run whose last step back leaves a zero. -/
theorem typing_taken_back_of_zeros :
    ∃ s e, (Session.openAt none).runAt {} = (.ok s, e) ∧ s.buffer ≠ "" ∧
      (s.typeEach ['0', '0', '²', 'x']).buffer.toList = ['²', 'x'] ∧
      Session.backspace^[4] (s.typeEach ['0', '0', '²', 'x']) = s ∧
      (s.run e [.append "", .percent, .append "7", .evaluate none, .backspace]).2.1.buffer ≠
        "" := by
  obtain ⟨htyping, hrun⟩ := typing_taken_back
  have hopen := Session.runAt_openAt_none {}
  have hbuffer := hrun none {} _ _ hopen []
  obtain ⟨hshown, hback⟩ := htyping _ "00²x" hbuffer
  exact ⟨_, _, hopen, hbuffer, hshown.trans (by decide), hback, hrun none {} _ _ hopen _⟩

end Abacus
