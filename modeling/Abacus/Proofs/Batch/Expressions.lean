import Abacus.Proofs.Batch

/-!
# Abacus — Batch — The expressions in a text

The expressions in a text file are its lines without the blanks around them
(`expressions_of_content`), whatever the newlines of the file.  So `expressions_of_text` says of
every content what stays of it, what stays together, and that it is read again as it has been read.
-/

namespace Abacus.Batch
variable {t u v : FileTree} {p q : Path} {bytes : ByteArray} {content text : String}

/-- A text file with bytes that are no text has no expressions. -/
theorem expressions_of_not_text [SevenZip] (htext : p.lastEnding = ".txt")
    (hfile : t.lookup p = .ok (.file bytes)) (hbytes : String.fromUTF8? bytes = none) :
    expressions t p = .error (.file .notText) := by
  have hdecode : FileTree.decode bytes = .error .notText := by rw [FileTree.decode, hbytes]
  have hread : t.readText p = .error .notText := by
    rw [FileTree.readText, hfile]
    exact hdecode
  rw [expressions, if_pos (by simpa using htext), hread]
  rfl

/-- A text file has the trimmed lines of its content for expressions. -/
theorem expressions_of_content [SevenZip] (htext : p.lastEnding = ".txt")
    (hfile : t.lookup p = .ok (.file bytes)) (hcontent : String.fromUTF8? bytes = some content) :
    expressions t p = .ok ((Text.trimmedLines content.toList).map String.ofList) := by
  have hdecode : FileTree.decode bytes =
      .ok (String.ofList (Text.unifyNewlines content.toList)) := by
    rw [FileTree.decode, hcontent]
  have hread : t.readText p = .ok (String.ofList (Text.unifyNewlines content.toList)) := by
    rw [FileTree.readText, hfile]
    exact hdecode
  have hlines : expressionsOf (String.ofList (Text.unifyNewlines content.toList)) =
      (Text.trimmedLines content.toList).map String.ofList := by
    rw [expressionsOf_eq, String.toList_ofList, Text.trimmedLines_unifyNewlines]
  rw [expressions, if_pos (by simpa using htext), hread, ← hlines]
  rfl

/-- What has been written as text is read as its lines. -/
theorem expressions_of_writeText [SevenZip] (htext : q.lastEnding = ".txt")
    (hwrite : u.writeText q text = .ok v) :
    expressions v q = .ok ((Text.trimmedLines text.toList).map String.ofList) :=
  expressions_of_content htext (FileTree.lookup_of_write hwrite) (dif_pos text.isValidUTF8)

/-- Expressions are written one to a line, with or without a line feed behind the last. -/
inductive WrittenOut (xs : List String) : String → Prop where
  | ended : WrittenOut xs (resultsText xs)
  | unended : WrittenOut xs (String.intercalate "\n" xs)

/-- Lines without blanks around them come back from the text that they are written out in. -/
theorem WrittenOut.trimmedLines_eq {xs : List String} (h : WrittenOut xs text)
    (hxs : ∀ x ∈ xs, Text.IsTrimmedLine x.toList) :
    Text.trimmedLines text.toList = xs.map String.toList := by
  have hlines : ∀ line ∈ xs.map String.toList, Text.IsTrimmedLine line :=
    List.forall_mem_map.mpr hxs
  cases h with
  | ended =>
      rw [toList_resultsText]
      exact Text.trimmedLines_flatMap hlines
  | unended =>
      rw [String.toList_intercalate]
      exact Text.trimmedLines_intercalate hlines

/-- **Nothing but blanks is lost of a text file.**  Its expressions are not empty, begin and end
with no blank and have no line end in them; what they hold besides blanks is what the content holds,
in order, and two characters come to stand in one expression exactly when no line end stands between
them.  Written one to a line, in place of the content or anywhere else, the expressions are read
again as they are. -/
theorem expressions_of_text [SevenZip] (htext : p.lastEnding = ".txt")
    (hfile : t.lookup p = .ok (.file bytes)) :
    (String.fromUTF8? bytes = none → expressions t p = .error (.file .notText)) ∧
    ∀ content, String.fromUTF8? bytes = some content → ∃ xs, expressions t p = .ok xs ∧
      (∀ x ∈ xs, Text.IsTrimmedLine x.toList) ∧
      (xs.flatMap fun x => Text.withoutBlanks x.toList) = Text.withoutBlanks content.toList ∧
      (∀ a c b d e, content.toList = a ++ c :: (b ++ d :: e) → Text.isBlank c = false →
        Text.isBlank d = false →
          (Text.OfOne (xs.map fun x => Text.withoutBlanks x.toList) (Text.withoutBlanks a).length
            (Text.withoutBlanks (a ++ c :: b)).length ↔ Text.IsOneLine b)) ∧
      ∀ text, WrittenOut xs text → (∃ u, t.writeText p text = .ok u) ∧
        ∀ (u v : FileTree) (q : Path), q.lastEnding = ".txt" → u.writeText q text = .ok v →
          expressions v q = .ok xs := by
  refine ⟨expressions_of_not_text htext hfile, fun content hcontent => ?_⟩
  have hxs : ∀ x ∈ (Text.trimmedLines content.toList).map String.ofList,
      Text.IsTrimmedLine x.toList := by
    rw [List.forall_mem_map]
    intro line hline
    rw [String.toList_ofList]
    exact Text.isTrimmedLine_of_mem hline
  refine ⟨_, expressions_of_content htext hfile hcontent, hxs, ?_, ?_,
    fun text hwritten => ⟨?_, ?_⟩⟩
  · rw [List.flatMap_map, ← Text.flatMap_withoutBlanks]
    simp only [String.toList_ofList]
  · intro a c b d e hsplit hc hd
    rw [List.map_map, hsplit]
    simp only [Function.comp_def, String.toList_ofList]
    exact Text.ofOne_iff hc hd
  · -- where a file is, a file can be put
    obtain ⟨place, hplace, hnode⟩ := FileTree.lookup_eq_ok_iff.mp hfile
    exact ⟨_, FileTree.write_of_locate hplace (by rw [hnode]; nofun)⟩
  · intro u v q hq hwrite
    rw [expressions_of_writeText hq hwrite, hwritten.trimmedLines_eq hxs, List.map_map]
    simp [Function.comp_def]

/-- Newlines of three kinds, and blanks around and inside the lines. -/
theorem expressions_of_text_of_newlines :
    let content := " 1 + 1\r\n\u2028\t2*3\n \x0b(4)"
    let t : FileTree := ⟨[(["a.txt"], .file content.toUTF8)], []⟩
    let p : Path := ⟨0, ["a.txt"]⟩
    p.lastEnding = ".txt" ∧ t.lookup p = .ok (.file content.toUTF8) ∧
      ∃ xs, expressions t p = .ok xs ∧ (∀ x ∈ xs, Text.IsTrimmedLine x.toList) ∧
        (xs.flatMap fun x => Text.withoutBlanks x.toList) = "1+12*3(4)".toList := by
  intro content t p
  have htext : p.lastEnding = ".txt" := by decide +kernel
  have hfile : t.lookup p = .ok (.file content.toUTF8) := by decide +kernel
  obtain ⟨xs, hxs, htrimmed, hall, -⟩ :=
    (expressions_of_text htext hfile).2 content (dif_pos content.isValidUTF8)
  refine ⟨htext, hfile, xs, hxs, htrimmed, hall.trans ?_⟩
  decide +kernel

end Abacus.Batch
