import Abacus.Proofs.Batch
import Abacus.Proofs.Session.Reopening

/-!
# Abacus — Session — Sessions at two desks

Two sessions that do the same work at different times differ in the times and identifiers of their
entries, and the files that they leave differ in these alone (`Session.Akin`, `FileTree.Akin`).  A
session that opens on the files of the one is akin to a session that opens on those of the other
(`Session.OpensOn.exists_akin`).

Of two such sessions the one goes on where the other is opened anew: `Paired` says what they have in
common, with what the first needs to be one that could be opened again.  Where all saves of the
first succeed, evaluating an expression, and evaluating a file, keeps the two paired and answers
alike in both (`Paired.evaluate`, `Paired.run`).
-/

namespace Abacus

/-! ### Up to times and identifiers -/

/-- Two entries of one evaluation, made at different times. -/
structure Entry.Akin (e f : Entry) : Prop where
  expression : f.expression = e.expression
  result : f.result = e.result

/-- The contents of two files that hold histories of the same evaluations. -/
def History.AkinTexts (a b : ByteArray) : Prop :=
  ∃ h k : History, h.entries.Forall₂ Entry.Akin k.entries ∧
    (∀ e ∈ h.entries, e.id ≠ "") ∧ (∀ e ∈ k.entries, e.id ≠ "") ∧
    a = (String.ofList h.toJson.text).toUTF8 ∧ b = (String.ofList k.toJson.text).toUTF8

/-- Two sessions of the same preferences and the same evaluations. -/
structure Session.Akin (s m : Session) : Prop where
  buffer : m.buffer = s.buffer
  preferences : m.preferences.preferences = s.preferences.preferences
  entries : s.history.history.entries.Forall₂ Entry.Akin m.history.history.entries

theorem Entry.Akin.refl (e : Entry) : e.Akin e := ⟨rfl, rfl⟩

/-- Entries that are akin are shown alike. -/
theorem Entry.lines_of_akin {es fs : List Entry} (h : es.Forall₂ Akin fs) :
    fs.map (fun e => e.expression ++ " = " ++ e.result) =
      es.map fun e => e.expression ++ " = " ++ e.result := by
  induction h with
  | nil => rfl
  | cons h _ ih => rw [List.map_cons, List.map_cons, ih, h.expression, h.result]

/-- Where the history of a directory is kept. -/
def RecordStore.historyPlace (directory : Path) (here : Place) : Place :=
  FileTree.placeOf here ((RecordStore.mk directory).recordPath KeptHistory.key)

/-- Two trees that hold the same but for the times and identifiers in the history of a directory. -/
def FileTree.Akin (directory : Path) (t u : FileTree) : Prop :=
  EqualBut (RecordStore.historyPlace directory t.here) History.AkinTexts t u

/-! ### Trees that are akin -/

/-- Every document that a session saves can be written. -/
theorem Record.isWritable_document (s : Session) (r : Record) : (r.document s).isWritable = true :=
  ((r.document s).readsBack_iff.mp (Record.readsBack_document s r)).1

/-- On trees that are akin a document is saved alike, and so are histories of the same
evaluations. -/
theorem FileTree.Akin.saved {directory : Path} {t u t' : FileTree} {r : Record} {a b : Json}
    (h : t.Akin directory u)
    (hdoc : b = a ∨ r = .history ∧
      History.AkinTexts (String.ofList a.text).toUTF8 (String.ofList b.text).toUTF8)
    (hwritable : b.isWritable = true)
    (hsaved : RecordStore.saved t ((RecordStore.mk directory).recordPath r.key) directory a =
      (t', true)) :
    ∃ u', RecordStore.saved u ((RecordStore.mk directory).recordPath r.key) directory b =
      (u', true) ∧ t'.Akin directory u' := by
  obtain ⟨hmake, -, hwrite⟩ := RecordStore.saved_eq_true_iff.mp hsaved
  obtain ⟨hmade, hresult⟩ := h.makeDirectories directory
  have hnode : ∀ place, (t.makeDirectories directory).1.locate
      ((RecordStore.mk directory).recordPath r.key) = .ok place →
        Node.file (String.ofList b.text).toUTF8 = .file (String.ofList a.text).toUTF8 ∨
          place = RecordStore.historyPlace directory t.here ∧ ∃ c d,
            Node.file (String.ofList a.text).toUTF8 = .file c ∧
              Node.file (String.ofList b.text).toUTF8 = .file d ∧ History.AkinTexts c d := by
    intro place hplace
    rcases hdoc with rfl | ⟨rfl, hakin⟩
    · exact .inl rfl
    · refine .inr ⟨?_, _, _, rfl, rfl, hakin⟩
      rw [← FileTree.placeOf_of_locate hplace, (makesOnly_makeDirectories t directory).here]
      rfl
  rcases hmade.write hnode with ⟨f, hf, -⟩ | ⟨t'', u', ht, hu, hequal⟩
  · cases hf.symm.trans hwrite
  · obtain rfl : t'' = t' := Except.ok.inj (ht.symm.trans hwrite)
    refine ⟨u', RecordStore.saved_eq_true_iff.mpr ⟨hresult.trans hmake, hwritable, hu⟩, ?_⟩
    unfold FileTree.Akin
    rw [RecordStore.here_of_saved hsaved]
    exact hequal

/-- No record has the name of a file of results. -/
theorem Batch.getLast?_of_results {t : FileTree} {p output : Path} {q : Place}
    (houtput : outputPath p = .ok output) (hq : t.locate output = .ok q) (r : Record) :
    q.getLast? ≠ some (RecordStore.fileName r.key) := by
  obtain ⟨stem, rfl⟩ := exists_name_of_outputPath houtput
  have hlast (name : String) (h : stem ++ "_results.txt" = name) :
      name.toList.getLast? = some 't' := by
    rw [← h, String.toList_append, List.getLast?_append_of_ne_nil _ (by decide)]
    rfl
  have hup : stem ++ "_results.txt" ≠ ".." := fun h => nomatch hlast _ h
  rw [FileTree.getLast?_of_locate_child hup hq]
  intro hname
  have := hlast _ (Option.some.inj hname)
  cases r <;> exact absurd this (by decide)

section Expressions
variable [SevenZip] {h : Place} {R : ByteArray → ByteArray → Prop} {t u : FileTree}

/-- What is read of an archive depends on no file whose name is not that of a text. -/
theorem Batch.textOf_equalBut (heq : FileTree.EqualBut h R t u)
    (hname : ∀ name, h.getLast? = some name → isText name = false) (dir : Place) (p : Path)
    (a : Archive) : textOf u dir p a = textOf t dir p a := by
  unfold textOf
  cases hfind : a.names.find? isText with
  | none => rfl
  | some name =>
      have htext := List.find?_some hfind
      refine (((a.unpack_alike heq dir name).mapError _).bind fun t' u' heq' => ?_).eq.symm
      have hlast := isText_name_within htext dir
      obtain ⟨hempty, hup⟩ := ne_of_isText hlast
      have hlookup := heq'.lookup_eq_of_name hempty hup fun h => by
        rw [hname _ h] at hlast
        cases hlast
      rw [FileTree.readText, FileTree.readText, hlookup]
      exact .refl (fun _ => rfl) _

/-- In a tree that is akin a file has the same expressions: the file of a history has none. -/
theorem Batch.expressions_akin {directory : Path} (h : t.Akin directory u) (p : Path) :
    expressions u p = expressions t p := by
  have hlast : (RecordStore.historyPlace directory t.here).getLast? =
      some (RecordStore.fileName KeptHistory.key) := RecordStore.getLast?_recordPlace ..
  -- a file that is looked at has an ending that the history's file has not
  have hp (hending : p.lastEnding = ".txt" ∨ kindOf? p ≠ none) : p.name ≠ "" ∧ p.name ≠ ".." ∧
      (RecordStore.historyPlace directory t.here).getLast? ≠ some p.name := by
    rw [hlast]
    unfold kindOf? Path.lastEnding Path.endings at hending
    refine ⟨?_, ?_, fun hname => ?_⟩
    · intro hname
      rw [hname] at hending
      exact absurd hending (by decide)
    · intro hname
      rw [hname] at hending
      exact absurd hending (by decide)
    · rw [← Option.some.inj hname] at hending
      exact absurd hending (by decide)
  unfold expressions
  by_cases htext : p.lastEnding = ".txt"
  · obtain ⟨hempty, hup, hname⟩ := hp (.inl htext)
    rw [FileTree.readText, FileTree.readText, h.lookup_eq_of_name hempty hup hname]
    simp only [htext, beq_self_eq_true, if_true]
  · have hextract : extract u p = extract t p := by
      refine ((h.makeTemporary.mapError _).bind ?_).eq.symm
      rintro ⟨t', dir⟩ ⟨u', _⟩ ⟨heq, rfl⟩
      dsimp only at heq ⊢
      cases hkind : kindOf? p with
      | none => exact .refl (fun _ => rfl) _
      | some kind =>
          obtain ⟨hempty, hup, hname⟩ := hp (.inr (hkind.trans_ne (Option.some_ne_none kind)))
          dsimp only
          rw [heq.lookup_eq_of_name hempty hup hname]
          have htextOf := textOf_equalBut heq (fun name hname => by
            rw [hlast] at hname
            rw [← Option.some.inj hname]
            decide)
          simp only [htextOf]
          exact .refl (fun _ => rfl) _
    simp only [htext, beq_iff_eq, if_false, hextract]

end Expressions

/-! ### Opening on trees that are akin -/

namespace Session
variable {directory : Path} {s : Session} {t u : FileTree}

/-- The histories that two such trees have are akin. -/
theorem entriesIn_akin (h : t.Akin directory u) :
    List.Forall₂ Entry.Akin
      (KeptHistory.entriesIn ((RecordStore.mk directory).document? KeptHistory.key t))
      (KeptHistory.entriesIn ((RecordStore.mk directory).document? KeptHistory.key u)) := by
  have hsame (es : List Entry) : es.Forall₂ Entry.Akin es :=
    List.forall₂_same.mpr fun e _ => .refl e
  cases hlocate : t.locate ((RecordStore.mk directory).recordPath KeptHistory.key) with
  | error f =>
      rw [RecordStore.document?_of_locate_eq_error hlocate,
        RecordStore.document?_of_locate_eq_error ((h.locate_eq _).trans hlocate)]
      exact hsame _
  | ok place =>
      rcases h.node place with hnode | ⟨-, a, b, ha, hb, ⟨k, l, hkl, hk, hl, rfl, rfl⟩⟩
      · rw [RecordStore.document?_of_locate hlocate,
          RecordStore.document?_of_locate ((h.locate_eq _).trans hlocate),
          RecordStore.documentAt_congr hnode]
        exact hsame _
      · have hholds : (RecordStore.mk directory).Holds KeptHistory.key k.toJson t :=
          FileTree.lookup_eq_ok_iff.mpr ⟨place, hlocate, ha⟩
        have hholds' : (RecordStore.mk directory).Holds KeptHistory.key l.toJson u :=
          FileTree.lookup_eq_ok_iff.mpr
            ⟨place, (h.locate_eq _).trans hlocate, hb⟩
        rw [hholds.document?_eq k.readsBack_toJson, hholds'.document?_eq l.readsBack_toJson,
          KeptHistory.entriesIn_toJson hk, KeptHistory.entriesIn_toJson hl]
        exact hkl

/-- On trees that are akin sessions open that are akin. -/
theorem OpensOn.exists_akin (h : s.OpensOn directory t) (hakin : t.Akin directory u) :
    ∃ m : Session, m.OpensOn directory u ∧ s.Akin m := by
  have hdocument : (RecordStore.mk directory).document? Record.preferences.key u =
      (RecordStore.mk directory).document? Record.preferences.key t := by
    rw [RecordStore.document?, RecordStore.document?, RecordStore.readDocument?,
      RecordStore.readDocument?, FileTree.readText, FileTree.readText, hakin.lookup_eq_of_ne]
    rintro place hplace rfl
    have hlast := FileTree.getLast?_of_locate_child (RecordStore.fileName_ne_up _) hplace
    rw [RecordStore.historyPlace, RecordStore.getLast?_recordPlace] at hlast
    exact Record.fileName_key_ne (r := .history) (q := .preferences) (by decide)
      (Option.some.inj hlast)
  let entries := KeptHistory.entriesIn ((RecordStore.mk directory).document? KeptHistory.key u)
  refine ⟨⟨s.buffer, s.preferences,
    ⟨.ofList History.standardCapacity History.standardCapacity_pos entries, some ⟨directory⟩⟩⟩,
    ⟨h.buffer, h.preferences_store, rfl, fun r => ?_, fun r => ?_⟩, rfl, rfl, ?_⟩
  · cases r with
    | preferences =>
        rw [hdocument]
        exact h.given .preferences
    | history => rfl
  · obtain ⟨there, hthere⟩ := h.isThere r
    exact ⟨there, (hakin.isThere_eq _).trans hthere⟩
  · have hgiven : s.history.history = .ofList _ _ _ := h.given .history
    rw [hgiven]
    exact List.forall₂_take History.standardCapacity (entriesIn_akin hakin)

end Session

/-! ### Two runs side by side -/

/-- Two runs of the same work: one of a session at a desk whose files have grown out of `t₀`, and
one of a session like it at a desk with such files, where every save is taken.  The first session is
the one that would be opened again. -/
structure Paired (directory : Path) (t₀ : FileTree) (s : Session) (d : Desk) (m : Session)
    (e : Desk) : Prop where
  reopens : s.Reopens directory d.files
  kept : m.KeptIn ⟨directory⟩
  akin : s.Akin m
  files : d.files.Akin directory e.files
  grows : t₀.Grows d.files
  taken : ∀ r ∈ e.refusals, r = none

namespace Paired
variable {directory : Path} {t₀ : FileTree} {s m s₁ m₁ : Session} {d e d₁ e₁ : Desk}

/-- Only the files and the refusals matter. -/
theorem of_files (h : Paired directory t₀ s d m e) (hd : d₁.files = d.files)
    (he : e₁.files = e.files) (hrefusals : e₁.refusals = e.refusals) :
    Paired directory t₀ s d₁ m e₁ := by
  refine ⟨?_, h.kept, h.akin, ?_, ?_, ?_⟩
  · rw [hd]
    exact h.reopens
  · rw [hd, he]
    exact h.files
  · rw [hd]
    exact h.grows
  · rw [hrefusals]
    exact h.taken

/-- The contents of a record that two such sessions save. -/
theorem document_akin (hs : s₁.KeptIn ⟨directory⟩) (hm : m₁.KeptIn ⟨directory⟩)
    (hakin : s₁.Akin m₁) (r : Record) :
    r.document m₁ = r.document s₁ ∨ r = .history ∧
      History.AkinTexts (String.ofList (r.document s₁).text).toUTF8
        (String.ofList (r.document m₁).text).toUTF8 := by
  cases r with
  | preferences => exact .inl (congrArg Preferences.toJson hakin.preferences)
  | history => exact .inr ⟨rfl, _, _, hakin.entries, hs.id_ne, hm.id_ne, rfl, rfl⟩

/-- Where the first run saves a record, so does the second. -/
theorem afterSave (h : Paired directory t₀ s d m e) {r : Record} (hs : s₁.KeptIn ⟨directory⟩)
    (hm : m₁.KeptIn ⟨directory⟩) (hakin : s₁.Akin m₁) (hbuffer : s₁.buffer = s.buffer)
    (hothers : ∀ r' ≠ r, ∀ doc, r'.GivenBy s doc → r'.GivenBy s₁ doc)
    (herrors : (d.afterSave (some ⟨directory⟩) r.key (r.document s₁)).errors = d.errors) :
    Paired directory t₀ s₁ (d.afterSave (some ⟨directory⟩) r.key (r.document s₁)) m₁
      (e.afterSave (some ⟨directory⟩) r.key (r.document m₁)) := by
  obtain ⟨hfiles, -⟩ := d.afterSave_some ⟨directory⟩ r.key (r.document s₁)
  obtain ⟨hfiles', hrefusals', -⟩ := e.afterSave_some ⟨directory⟩ r.key (r.document m₁)
  have hsaved := RecordStore.saved_of_savedAt (Desk.savedAt_of_errors herrors)
  obtain ⟨u', hsaved', hakin'⟩ := h.files.saved (document_akin hs hm hakin r)
    (Record.isWritable_document m₁ r) hsaved
  rw [← hfiles] at hsaved hakin'
  rw [RecordStore.savedAt_of_taken h.taken, hsaved'] at hfiles'
  refine ⟨h.reopens.saved hs hbuffer hothers hsaved, hm, hakin, hfiles' ▸ hakin',
    h.grows.trans ((RecordStore.leaves_saved hsaved).grows), ?_⟩
  rw [hrefusals']
  exact fun r hr => h.taken r (List.mem_of_mem_tail hr)

/-- Where the first run's evaluation is saved, the second answers alike. -/
theorem evaluate (h : Paired directory t₀ s d m e) (source : String)
    (herrors : ((s.evaluate source).runAt d).2.errors = d.errors) :
    ∃ o text s₁ d₁ m₁ e₁, (s.evaluate source).runAt d = (.ok (o, text, s₁), d₁) ∧
      (m.evaluate source).runAt e = (.ok (o, text, m₁), e₁) ∧ Paired directory t₀ s₁ d₁ m₁ e₁ := by
  obtain ⟨c, hc⟩ := exists_calculate source
  have hkept := h.reopens.keptIn
  have hcapacity : m.history.history.capacity = s.history.history.capacity :=
    h.kept.capacity.trans hkept.capacity.symm
  have hentry : (Session.entryOf d source c.outcome).Akin (Session.entryOf e source c.outcome) :=
    ⟨rfl, rfl⟩
  have hnoted : (d.noted c.notices).stamped.errors = d.errors := Session.errors_noted_notices d c
  have hpaired : Paired directory t₀ s (d.noted c.notices).stamped m (e.noted c.notices).stamped :=
    h.of_files rfl rfl rfl
  have hdisplay : m.display c.outcome = s.display c.outcome := by
    rw [Session.display, Session.display, h.akin.preferences]
  rw [Session.runAt_evaluate hc, hkept.history_store] at herrors
  refine ⟨_, _, _, _, _, _, Session.runAt_evaluate hc,
    by rw [Session.runAt_evaluate hc, hdisplay], ?_⟩
  rw [hkept.history_store, h.kept.history_store]
  refine hpaired.afterSave (r := .history) (hkept.push _ (Entry.id_stamped_ne _ _ _ _))
    (h.kept.push _ (Entry.id_stamped_ne _ _ _ _)) ⟨h.akin.buffer, h.akin.preferences, ?_⟩ rfl ?_
    (herrors.trans hnoted.symm)
  · show (List.take _ _).Forall₂ Entry.Akin (List.take _ _)
    rw [hcapacity]
    exact List.forall₂_take _ (.cons hentry h.akin.entries)
  · intro r hr doc hgiven
    cases r with
    | preferences => exact hgiven
    | history => exact absurd rfl hr

/-- Expressions one after another keep the sessions side by side, as long as everything is saved. -/
theorem evaluateAll (h : Paired directory t₀ s d m e) (sources : List String)
    (herrors : ((Batch.evaluateAll s sources).runAt d).2.errors = d.errors) :
    ∃ lines s₁ d₁ m₁ e₁, (Batch.evaluateAll s sources).runAt d = (.ok (lines, s₁), d₁) ∧
      (Batch.evaluateAll m sources).runAt e = (.ok (lines, m₁), e₁) ∧
      Paired directory t₀ s₁ d₁ m₁ e₁ := by
  induction sources generalizing s m d e with
  | nil => exact ⟨_, _, _, _, _, rfl, rfl, h⟩
  | cons x xs ih =>
      obtain ⟨o, text, s₁, d₁, hrun, hle⟩ := s.exists_evaluate x d
      -- no error is taken back, so none has been noted in the first evaluation
      have hrest : ((Batch.evaluateAll s₁ xs).runAt d₁).2.errors = d.errors := by
        rw [Batch.runAt_evaluateAll_cons hrun] at herrors
        rw [← herrors]
        cases (Batch.evaluateAll s₁ xs).runAt d₁ with
        | mk result d₂ => cases result <;> rfl
      have hfirst : d₁.errors = d.errors :=
        le_antisymm (hrest ▸ Batch.errors_le_evaluateAll xs) hle
      obtain ⟨o', text', s₁', d₁', m₁, e₁, hrun', hrun'', hpaired⟩ :=
        h.evaluate x (by rw [hrun]; exact hfirst)
      cases hrun.symm.trans hrun'
      obtain ⟨lines, s₂, d₂, m₂, e₂, hlines, hlines', hlast⟩ :=
        ih hpaired (hrest.trans hfirst.symm)
      refine ⟨Batch.lineOf o x text :: lines, _, _, _, _, ?_, ?_, hlast⟩
      · rw [Batch.runAt_evaluateAll_cons hrun, hlines]
      · rw [Batch.runAt_evaluateAll_cons hrun'', hlines']

/-- A text is placed in both, or in none, if its name is not that of a record. -/
theorem place (h : Paired directory t₀ s d m e) {output : Path}
    (hname : ∀ q, d.files.locate output = .ok q →
      ∀ r : Record, q.getLast? ≠ some (RecordStore.fileName r.key)) (text : String) :
    (∃ f, d.files.writeText output text = .error f ∧ e.files.writeText output text = .error f) ∨
      ∃ t u, d.files.writeText output text = .ok t ∧ e.files.writeText output text = .ok u ∧
        Paired directory t₀ s { d with files := t } m { e with files := u } := by
  rcases h.files.write fun _ _ => .inl rfl with ⟨f, hf⟩ | ⟨t, u, ht, hu, hakin⟩
  · exact .inl ⟨f, hf⟩
  · obtain ⟨q, hq, hnode, hput⟩ := FileTree.exists_place_of_write ht
    refine .inr ⟨t, u, ht, hu, ⟨?_, h.kept, h.akin, ?_, ?_, h.taken⟩⟩
    · rw [hput]
      exact h.reopens.withFile (FileTree.withFile_put hnode nofun) (hname q hq)
    · have hhere : t.here = d.files.here := by rw [hput, FileTree.here_put]
      unfold FileTree.Akin
      rw [hhere]
      exact hakin
    · rw [hput]
      exact h.grows.trans (FileTree.grows_put hnode nofun)

/-- What can be written before an evaluation can be written after it, and alike in both. -/
theorem evaluateAll_place (h : Paired directory t₀ s d m e) {t : FileTree} {output : Path}
    {text : String} (hwritten : t.writeText output text = .ok d.files)
    (hname : ∀ t q, FileTree.locate t output = .ok q →
      ∀ r : Record, q.getLast? ≠ some (RecordStore.fileName r.key)) (sources : List String)
    (herrors : ((Batch.evaluateAll s sources).runAt d).2.errors = d.errors) :
    ∃ lines s₁ d₁ m₁ e₁ t₁ u₁,
      (Batch.evaluateAll s sources).runAt d = (.ok (lines, s₁), d₁) ∧
      (Batch.evaluateAll m sources).runAt e = (.ok (lines, m₁), e₁) ∧
      d₁.files.writeText output (Batch.resultsText lines) = .ok t₁ ∧
      e₁.files.writeText output (Batch.resultsText lines) = .ok u₁ ∧
      Paired directory t₀ s₁ { d₁ with files := t₁ } m₁ { e₁ with files := u₁ } := by
  -- the files grow from those that the first text has been put into
  obtain ⟨lines, s₁, d₁, m₁, e₁, hs, hm, hlast⟩ :=
    { h with grows := .refl d.files : Paired directory d.files s d m e }.evaluateAll sources herrors
  obtain ⟨v, hv⟩ := hlast.grows.exists_write hwritten nofun
    (.file (Batch.resultsText lines).toUTF8)
  rcases hlast.place (hname _) (Batch.resultsText lines) with ⟨f, hf, -⟩ | ⟨t₁, u₁, ht, hu, hplaced⟩
  · cases hf.symm.trans hv
  · exact ⟨lines, s₁, d₁, m₁, e₁, t₁, u₁, hs, hm, ht, hu,
      { hplaced with grows := h.grows.trans hplaced.grows }⟩

/-- A run over a file fails in both without having evaluated anything, or gives the same in both. -/
theorem run [SevenZip] (h : Paired directory t₀ s d m e) (p : Path)
    (herrors : ((Batch.run s p).runAt d).2.errors = d.errors) :
    (∃ f d₁ e₁, (Batch.run s p).runAt d = (.error (.batch f), d₁) ∧
      (Batch.run m p).runAt e = (.error (.batch f), e₁) ∧ Paired directory t₀ s d₁ m e₁) ∨
    ∃ output s₁ d₁ m₁ e₁, (Batch.run s p).runAt d = (.ok (output, s₁), d₁) ∧
      (Batch.run m p).runAt e = (.ok (output, m₁), e₁) ∧ Paired directory t₀ s₁ d₁ m₁ e₁ := by
  cases houtput : Batch.outputPath p with
  | error f =>
      exact .inl ⟨f, d, e, Batch.runAt_run_of_outputPath houtput,
        Batch.runAt_run_of_outputPath houtput, h⟩
  | ok output =>
      have hname (t : FileTree) (q : Place) (hq : t.locate output = .ok q) :=
        Batch.getLast?_of_results houtput hq
      have hsame := Batch.expressions_akin h.files p
      cases hsources : Batch.expressions d.files p with
      | error f =>
          exact .inl ⟨f, d, e, Batch.runAt_run_of_expressions houtput hsources,
            Batch.runAt_run_of_expressions houtput (hsame.trans hsources), h⟩
      | ok sources =>
          have hrun := Batch.runAt_run (s := s) houtput hsources
          have hrun' := Batch.runAt_run (s := m) houtput (hsame.trans hsources)
          rcases h.place (hname _) "" with ⟨f, hf, hf'⟩ | ⟨t, u, ht, hu, hplaced⟩
          · rw [hf] at hrun
            rw [hf'] at hrun'
            exact .inl ⟨_, _, _, hrun, hrun', h.of_files rfl rfl rfl⟩
          · simp only [ht] at hrun
            simp only [hu] at hrun'
            have hpaired : Paired directory t₀ s { d.noted [.info] with files := t } m
              { e.noted [.info] with files := u } := hplaced.of_files rfl rfl rfl
            obtain ⟨lines, s₁, d₁, m₁, e₁, t₁, u₁, hs, hm, ht₁, hu₁, hlast⟩ :=
              hpaired.evaluateAll_place ht hname sources
                ((Batch.errors_run houtput hsources ht).symm.trans
                  (herrors.trans (Desk.errors_noted_info d).symm))
            simp only [hs, ht₁] at hrun
            simp only [hm, hu₁] at hrun'
            exact .inr ⟨_, _, _, _, _, hrun, hrun', hlast.of_files rfl rfl rfl⟩

end Paired

end Abacus
