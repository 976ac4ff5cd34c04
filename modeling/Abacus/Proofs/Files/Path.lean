import Mathlib.Data.List.Infix
import Abacus.Files.Path

/-!
# Abacus — Files — Parts of a name

A text is cut at its last separator by cutting off what stands behind it
(`exists_splitAt_of_mem`).  So the last piece of a text is the last part of the path unless it is
empty or a dot (`Path.suffix_name_of_suffix`), and the last of a path's endings is its last ending
(`Path.lastEnding_eq_of_endings`).
-/

namespace Abacus

/-! ### Cutting -/

namespace Text
variable {separator : Char} {cs : List Char}

theorem splitAt_of_not_mem (h : separator ∉ cs) : splitAt separator cs = [cs] := by
  induction cs with
  | nil => rfl
  | cons c cs ih =>
      obtain ⟨hc, hcs⟩ := not_or.mp (mt List.mem_cons.mpr h)
      simp [splitAt, ih hcs, Ne.symm hc]

theorem splitAt_ne_nil (separator : Char) (cs : List Char) : splitAt separator cs ≠ [] := by
  cases cs with
  | nil => nofun
  | cons c cs =>
      rw [splitAt]
      split
      · nofun
      · split <;> nofun

/-- A separator cuts, and the two sides are cut on their own. -/
theorem splitAt_append (separator : Char) (front back : List Char) :
    splitAt separator (front ++ separator :: back) =
      splitAt separator front ++ splitAt separator back := by
  induction front with
  | nil =>
      obtain ⟨p, ps, hback⟩ := List.exists_cons_of_ne_nil (splitAt_ne_nil separator back)
      simp [splitAt, hback]
  | cons c front ih =>
      rw [List.cons_append, splitAt, ih, splitAt]
      obtain ⟨p, ps, hfront⟩ := List.exists_cons_of_ne_nil (splitAt_ne_nil separator front)
      rw [hfront, List.cons_append]
      by_cases hc : c = separator <;> simp [hc]

/-- What stands behind the last separator is the last piece. -/
theorem exists_splitAt_of_mem (h : separator ∈ cs) :
    ∃ front back, cs = front ++ separator :: back ∧ separator ∉ back ∧
      splitAt separator cs = splitAt separator front ++ [back] := by
  obtain ⟨back, front, hcs, hback⟩ := List.eq_append_cons_of_mem (List.mem_reverse.mpr h)
  have hback : separator ∉ back.reverse := fun hmem => hback (List.mem_reverse.mp hmem)
  refine ⟨front.reverse, back.reverse, ?_, hback, ?_⟩
  · rw [← List.reverse_reverse cs, hcs]
    simp
  · rw [← splitAt_of_not_mem hback, ← splitAt_append, ← List.reverse_reverse cs, hcs]
    simp

/-- A text is its first piece, which has no separator in it, and the others with a separator before
each. -/
theorem eq_append_of_splitAt {piece : List Char} {pieces : List (List Char)}
    (h : splitAt separator cs = piece :: pieces) :
    cs = piece ++ pieces.flatMap (separator :: ·) ∧ separator ∉ piece := by
  induction cs generalizing piece pieces with
  | nil =>
      cases h
      exact ⟨rfl, nofun⟩
  | cons c cs ih =>
      obtain ⟨first, rest, hrest⟩ := List.exists_cons_of_ne_nil (splitAt_ne_nil separator cs)
      obtain ⟨hcs, hfirst⟩ := ih hrest
      rw [splitAt, hrest] at h
      by_cases hc : c = separator
      · obtain ⟨rfl, rfl⟩ : [] = piece ∧ first :: rest = pieces := by simpa [hc] using h
        exact ⟨by rw [hcs, hc]; simp, nofun⟩
      · obtain ⟨rfl, rfl⟩ : c :: first = piece ∧ rest = pieces := by simpa [hc] using h
        exact ⟨by rw [hcs]; simp, by simp [hfirst, Ne.symm hc]⟩

/-- A text of characters of one byte has as many bytes as characters. -/
theorem utf8ByteSize_eq_length {s : String} (h : ∀ c ∈ s.toList, c.utf8Size = 1) :
    s.utf8ByteSize = s.length := by
  have hsize (cs : List Char) (h : ∀ c ∈ cs, c.utf8Size = 1) :
      (String.ofList cs).utf8ByteSize = cs.length := by
    induction cs with
    | nil => rfl
    | cons c cs ih =>
        obtain ⟨hc, hcs⟩ := List.forall_mem_cons.mp h
        rw [String.ofList_cons, String.utf8ByteSize_append, String.utf8ByteSize_singleton, hc,
          ih hcs, List.length_cons, Nat.add_comm]
  rw [← String.length_toList, ← hsize _ h, String.ofList_toList]

end Text

/-! ### Parts and endings -/

namespace Path

/-- A suffix of a text that has no slash in it is one of the last part of the path. -/
theorem suffix_name_of_suffix {s : String} {suffix : List Char} (h : suffix <:+ s.toList)
    (hslash : '/' ∉ suffix) (hne : suffix ≠ []) (hdot : suffix ≠ ['.']) :
    suffix <:+ (ofString s).name.toList := by
  have hlast (pieces : List (List Char)) (piece : List Char)
      (hsplit : Text.splitAt '/' s.toList = pieces ++ [piece]) (hsuffix : suffix <:+ piece) :
      suffix <:+ (ofString s).name.toList := by
    have hpiece : (String.ofList piece != "" && String.ofList piece != ".") = true := by
      rw [← String.ofList_toList (s := ""), ← String.ofList_toList (s := ".")]
      simp only [Bool.and_eq_true, bne_iff_ne, ne_eq, ← String.toList_inj, String.toList_ofList]
      constructor
      · rintro rfl
        exact hne (List.suffix_nil.mp hsuffix)
      · rintro rfl
        rcases List.suffix_cons_iff.mp hsuffix with hall | hnil
        · exact hdot hall
        · exact hne (List.suffix_nil.mp hnil)
    rw [name, ofString, hsplit, List.map_append, List.filter_append]
    simpa [List.filter_cons, hpiece] using hsuffix
  by_cases hmem : '/' ∈ s.toList
  · obtain ⟨front, back, hs, -, hsplit⟩ := Text.exists_splitAt_of_mem hmem
    refine hlast _ back hsplit ?_
    -- of two suffixes one is a suffix of the other, and the longer one would have the slash
    have hback : '/' :: back <:+ s.toList := hs ▸ List.suffix_append _ _
    rcases List.suffix_or_suffix_of_suffix h hback with hsuffix | hlong
    · rcases List.suffix_cons_iff.mp hsuffix with rfl | hsuffix
      · exact absurd (List.mem_cons_self ..) hslash
      · exact hsuffix
    · exact absurd (hlong.mem (List.mem_cons_self ..)) hslash
  · exact hlast [] s.toList (Text.splitAt_of_not_mem hmem) h

theorem parts_ne_nil_of_name {p : Path} (h : p.name ≠ "") : p.parts ≠ [] := by
  rintro hnil
  exact h (by rw [name, hnil]; rfl)

/-- A path that has a name is that of its directory and the name. -/
theorem eq_child_of_name {p : Path} (h : p.name ≠ "") : p = p.parent.child p.name := by
  have hlast : p.parts.getLast? = some p.name := by
    rw [name, List.getLast?_eq_some_getLast (parts_ne_nil_of_name h), Option.getD_some]
  rw [child, parent, List.dropLast_append_getLast? _ hlast]

theorem lastEndingOf_of_getLast? {name ending : List Char}
    (h : (endingsOf name).getLast? = some ending) : lastEndingOf name = ending := by
  unfold endingsOf at h
  split_ifs at h with hdot
  · cases h
  set plain := name.dropWhile (· == '.') with hplain
  by_cases hmem : '.' ∈ plain
  · obtain ⟨front, back, hname, hback, hsplit⟩ := Text.exists_splitAt_of_mem hmem
    obtain ⟨first, rest, hfirst⟩ := List.exists_cons_of_ne_nil (Text.splitAt_ne_nil '.' front)
    obtain rfl : '.' :: back = ending := by simpa [hsplit, hfirst] using h
    obtain ⟨c, front, rfl⟩ : ∃ c cs, front = c :: cs := by
      -- the dots at the front of the name are gone
      cases front with
      | cons c front => exact ⟨c, front, rfl⟩
      | nil =>
          have := List.head?_dropWhile_not (· == '.') name
          rw [← hplain, hname] at this
          simp at this
    have hne : back ≠ [] := by
      rintro rfl
      have hlast : name.getLast? = some '.' := by
        rw [← List.takeWhile_append_dropWhile (p := (· == '.')) (l := name), ← hplain, hname,
          ← List.append_assoc, List.getLast?_concat]
      simp [hlast] at hdot
    have hreverse : name.reverse = back.reverse ++ '.' ::
        ((c :: front).reverse ++ (name.takeWhile (· == '.')).reverse) := by
      conv_lhs =>
        rw [← List.takeWhile_append_dropWhile (p := (· == '.')) (l := name), ← hplain, hname]
      simp
    have htake : name.reverse.takeWhile (· != '.') = back.reverse := by
      rw [hreverse, List.takeWhile_append_of_pos (by grind)]
      simp
    have hdrop : name.reverse.dropWhile (· != '.') =
        '.' :: ((c :: front).reverse ++ (name.takeWhile (· == '.')).reverse) := by
      rw [hreverse, List.dropWhile_append_of_pos (by grind)]
      simp
    unfold lastEndingOf
    rw [htake, hdrop, List.reverse_reverse]
    cases hrest : (c :: front).reverse ++ (name.takeWhile (· == '.')).reverse with
    | nil => simp at hrest
    | cons c' cs => simp [hne]
  · rw [Text.splitAt_of_not_mem hmem] at h
    cases h

/-- A name with an ending does not end with a dot. -/
theorem exists_getLast?_of_lastEnding {p : Path} (h : p.lastEnding ≠ "") :
    ∃ c, p.name.toList.getLast? = some c ∧ c ≠ '.' := by
  have hending : lastEndingOf p.name.toList ≠ [] := by
    intro hnil
    rw [lastEnding, hnil] at h
    exact h rfl
  rw [lastEndingOf] at hending
  rw [List.getLast?_eq_head?_reverse]
  cases hname : p.name.toList.reverse with
  | nil => simp [hname] at hending
  | cons c cs =>
      refine ⟨c, rfl, ?_⟩
      rintro rfl
      rw [hname] at hending
      cases cs <;> simp at hending

/-- The last of a path's endings is its last ending. -/
theorem lastEnding_eq_of_endings {p : Path} {ending : String}
    (h : p.endings.getLast? = some ending) : p.lastEnding = ending := by
  rw [endings, List.getLast?_map, Option.map_eq_some_iff] at h
  obtain ⟨cs, hcs, rfl⟩ := h
  rw [lastEnding, lastEndingOf_of_getLast? hcs]

end Path

end Abacus
