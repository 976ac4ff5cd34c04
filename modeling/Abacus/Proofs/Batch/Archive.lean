import Abacus.Proofs.Batch
import Abacus.Proofs.Files.Unpack

/-!
# Abacus — Batch — Which text of an archive is read

The first member whose name is that of a text is looked for in the list of names, unpacked under its
name in a temporary directory, and read under it.  Names are not unique, and the place where a
member is unpacked is not always the one where its name leads: a zip archive leaves out what leads
up, and both a zip and a tar archive leave out what leads to the root, while the name itself may
lead out of the directory.  So it is the content of the first text exactly when its name is plain
and the last member of that name has the same content (`extract_first_text`).

A 7z archive is unpacked by a library.  What is taken for granted of it is `SevenZip.Documented`: a
member whose name is plain and its own is unpacked under that name.
-/

namespace Abacus

/-- A path leads down from a directory: it is relative, no step leads up, its names are not too
long, and neither is the whole with the seventeen bytes of a temporary directory before it. -/
structure Path.IsPlain (p : Path) : Prop where
  relative : p.slashes = 0
  down : ".." ∉ p.parts
  short : ∀ part ∈ p.parts, part.utf8ByteSize ≤ FileTree.nameLimit
  null : '\x00' ∉ p.text.toList
  fits : p.text.utf8ByteSize + 17 ≤ FileTree.pathLimit

/-- A relative path is written as its parts. -/
theorem Path.text_of_relative {p : Path} (h : p.slashes = 0) (hparts : p.parts ≠ []) :
    p.text = String.intercalate "/" p.parts := by
  rw [text, if_neg (by simp [hparts]), h]
  exact String.empty_append

/-- The library for 7z archives does what its documentation says: it lists the names of all members,
and to unpack the plain name of one member it writes a file of that member's content under it. -/
structure SevenZip.Documented [SevenZip] : Prop where
  names (members : List Member) : SevenZip.names members = members.map Member.name
  files (members : List Member) (m : Member) (hm : m ∈ members)
    (hplain : (Path.ofString m.name).IsPlain) (hown : (members.map Member.name).count m.name = 1) :
    SevenZip.files members m.name = .ok [((Path.ofString m.name).parts, m.content)]

namespace Batch
variable {t u : FileTree} {p q name : Path} {place dir : Place} {kind : ArchiveKind}
  {content : ByteArray} {parts : List String} {members : List Member} {first last : Member}
  {a : Archive} {s : String}

/-- What is read of a file with some content. -/
def textFrom (content : ByteArray) : Except Failure String :=
  (FileTree.decode content).mapError .file

theorem eq_notText_of_textFrom {f : Failure} (h : textFrom content = .error f) :
    f = .file .notText := by
  unfold textFrom FileTree.decode at h
  split at h <;> cases h
  rfl

theorem decode_eq_of_textFrom {c d : ByteArray} (h : textFrom c = textFrom d) :
    FileTree.decode c = FileTree.decode d := by
  unfold textFrom at h
  cases hc : FileTree.decode c <;> cases hd : FileTree.decode d <;> rw [hc, hd] at h <;>
    cases h <;> rfl

/-- An archive is at a path with an ending for its kind, and there is room for a temporary
directory. -/
structure IsArchive (t : FileTree) (p : Path) (a : Archive) : Prop where
  ending : kindOf? p = some a.kind
  found : t.lookup p = .ok (.archive a)
  room : ∃ made, t.makeTemporary = .ok made

/-! ### Names -/

/-- No ending for a kind of archive is that of a text. -/
theorem lastEnding_ne_of_kindOf? (h : kindOf? p = some kind) : p.lastEnding ≠ ".txt" := by
  intro htext
  unfold kindOf? at h
  rw [htext] at h
  rw [if_neg (by decide)] at h
  split_ifs at h with htar hseven
  · have hlast : p.endings.getLast? = some ".xz" := by
      rw [← List.take_append_drop (p.endings.length - 2) p.endings, eq_of_beq htar]
      simp
    rw [Path.lastEnding_eq_of_endings hlast] at htext
    exact absurd htext (by decide)
  · exact absurd hseven (by decide)

/-- The first of the names that is that of a text is the name of the first such member. -/
theorem find?_isText_names (members : List Member) :
    (members.map Member.name).find? isText =
      (members.find? fun m => isText m.name).map Member.name := by
  rw [List.find?_map]
  rfl

theorem exists_last (h : first ∈ members) :
    ∃ last, members.reverse.find? (fun m => m.name == first.name) = some last :=
  Option.isSome_iff_exists.mp
    (List.find?_isSome.mpr ⟨first, List.mem_reverse.mpr h, beq_self_eq_true _⟩)

/-- A name of one member's own is found with that member, from either end. -/
theorem find?_of_own (h : first ∈ members)
    (hown : (members.map Member.name).count first.name = 1) :
    members.find? (fun m => m.name == first.name) = some first ∧
      members.reverse.find? (fun m => m.name == first.name) = some first := by
  have hall : members.filter (fun m => m.name == first.name) = [first] := by
    have hmem : first ∈ members.filter fun m => m.name == first.name :=
      List.mem_filter.mpr ⟨h, beq_self_eq_true _⟩
    have hlength : (members.filter fun m => m.name == first.name).length = 1 := by
      rw [← hown, List.count, List.countP_map, List.countP_eq_length_filter]
      rfl
    obtain ⟨m, hm⟩ := List.length_eq_one_iff.mp hlength
    rw [hm] at hmem ⊢
    rw [List.mem_singleton.mp hmem]
  constructor
  · rw [← List.head?_filter, hall]
    rfl
  · rw [← List.head?_filter, List.filter_reverse, hall]
    rfl

/-! ### Where a member is unpacked -/

/-- Without upward steps the place that a path names is where its parts lead from its origin. -/
theorem placeOf_of_down {p : Path} (h : ".." ∉ p.parts) (here : Place) :
    FileTree.placeOf here p = (if p.slashes = 0 then here else []) ++ p.parts := by
  have hfold (parts : List String) (h : ".." ∉ parts) (place : Place) :
      parts.foldl (fun place part => if part == ".." then place.dropLast else place ++ [part])
        place = place ++ parts := by
    induction parts generalizing place with
    | nil => exact (List.append_nil _).symm
    | cons part parts ih =>
        obtain ⟨hpart, hparts⟩ := not_or.mp (mt List.mem_cons.mpr h)
        rw [List.foldl_cons, if_neg (by simpa using Ne.symm hpart), ih hparts, List.append_assoc,
          List.singleton_append]
  exact hfold p.parts h _

/-- A zip archive leaves out what leads up or to the root, so a member whose name does so is
unpacked deeper than its name leads. -/
theorem isPlain_of_locate (hdir : t.IsEmptyDirectory dir)
    (htemporary : FileTree.IsTemporary dir)
    (hkeeps : t.KeepsDirectories u) (hparts : name.parts ≠ [])
    (hput : u.locate ⟨1, dir ++ name.parts.filter (· != "..")⟩ = .ok place)
    (hread : u.locate (name.within dir) = .ok place) : name.IsPlain := by
  have hlength := htemporary.length_eq
  rw [FileTree.locate_within (hkeeps.locate hdir.way), Except.bind_eq_ok_iff] at hput
  obtain ⟨_, -, hput⟩ := hput
  have hdepth : place.length = 2 + (name.parts.filter (· != "..")).length := by
    rw [(FileTree.eq_append_of_foldlM_enter (by simp) hput).1, List.length_append, hlength]
  have hrelative : name.slashes = 0 := by
    by_contra hslashes
    rw [Path.within, if_neg hslashes, FileTree.locate, Except.bind_eq_ok_iff, FileTree.origin,
      if_neg hslashes] at hread
    obtain ⟨_, -, hread⟩ := hread
    have := FileTree.length_le_of_foldlM_enter hread
    rw [List.length_nil] at this
    omega
  rw [Path.within, if_pos hrelative, FileTree.locate_within (hkeeps.locate hdir.way),
    Except.bind_eq_ok_iff] at hread
  obtain ⟨_, hcheck, hread⟩ := hread
  have hdown : ".." ∉ name.parts := by
    intro hup
    have hne : dir ≠ [] := by
      rintro rfl
      cases hlength
    have := FileTree.length_lt_of_foldlM_enter hne hup hread
    omega
  rw [htemporary.checkPath_iff hparts, ← Path.text_of_relative hrelative hparts] at hcheck
  exact ⟨hrelative, hdown, (FileTree.eq_append_of_foldlM_enter hdown hread).2, hcheck.1, hcheck.2⟩

section Files
variable [SevenZip]

/-- What a zip and a tar archive write for a name is one file, of the last member's content, or
nothing. -/
theorem files_cases (dir : Place) (hkind : kind ≠ .sevenZip)
    (hlast : members.reverse.find? (fun m => m.name == s) = some last) :
    (∃ parts, Archive.files ⟨kind, members⟩ dir s = .ok [(parts, last.content)]) ∨
      Archive.files ⟨kind, members⟩ dir s = .error .refused := by
  unfold Archive.files
  rw [hlast]
  cases kind with
  | zip => exact .inl ⟨_, rfl⟩
  | tarXz =>
      dsimp only
      split_ifs
      · exact .inl ⟨_, rfl⟩
      · exact .inr rfl
  | sevenZip => exact absurd rfl hkind

theorem find?_isText_names_of_ne (hkind : kind ≠ .sevenZip)
    (hfirst : members.find? (fun m => isText m.name) = some first) :
    (Archive.names ⟨kind, members⟩).find? isText = some first.name := by
  have hnames : Archive.names ⟨kind, members⟩ = members.map Member.name := by
    cases kind with
    | zip | tarXz => rfl
    | sevenZip => exact absurd rfl hkind
  rw [hnames, find?_isText_names, hfirst]
  rfl

/-- They write it under the name itself if that is plain. -/
theorem files_of_isPlain (hkind : kind ≠ .sevenZip) (hplain : (Path.ofString s).IsPlain)
    (hdir : ".." ∉ dir) (hlast : members.reverse.find? (fun m => m.name == s) = some last) :
    Archive.files ⟨kind, members⟩ dir s = .ok [((Path.ofString s).parts, last.content)] := by
  unfold Archive.files
  rw [hlast]
  cases kind with
  | zip =>
      have hfilter : (Path.ofString s).parts.filter (· != "..") = (Path.ofString s).parts :=
        List.filter_eq_self.mpr fun part hpart =>
          bne_iff_ne.mpr fun hup => hplain.down (hup ▸ hpart)
      simp only [hfilter]
  | tarXz =>
      have hdown : ".." ∉ (⟨1, dir ++ (Path.ofString s).parts⟩ : Path).parts := by
        simp [hdir, hplain.down]
      have hbelow : dir.isPrefixOf
          (FileTree.placeOf [] ⟨1, dir ++ (Path.ofString s).parts⟩) = true := by
        rw [placeOf_of_down hdown, List.isPrefixOf_iff_prefix]
        exact List.prefix_append ..
      simp only [hbelow, if_true]
  | sevenZip => exact absurd rfl hkind

/-- A name for one file is unpacked by writing that file. -/
theorem unpack_of_files (hfiles : a.files dir s = .ok [(parts, content)]) :
    a.unpack t dir s = (t.unpackAt dir parts content).mapError .file := by
  rw [Archive.unpack, hfiles, Except.ok_bind, List.foldlM_cons]
  dsimp only
  cases t.unpackAt dir parts content <;> rfl

/-- Of a file that is unpacked its content is read, if the name leads to where it has been put; and
otherwise what was at the name's place before, if anything was. -/
theorem textOf_cases (hname : a.names.find? isText = some s)
    (hfiles : a.files dir s = .ok [(parts, content)]) :
    (textOf t dir p a = textFrom content ∧ ∃ u place, t.KeepsDirectories u ∧
      u.locate ⟨1, dir ++ parts⟩ = .ok place ∧
        u.locate ((Path.ofString s).within dir) = .ok place) ∨
    (∃ f, f ≠ .file .notText ∧ textOf t dir p a = .error f) ∨
    ∃ place node, (∃ last, place.getLast? = some last ∧ isText last = true) ∧
      t.node? place = some node ∧ node ≠ .directory ∧
      textOf t dir p a = node.text.mapError .file := by
  unfold textOf
  rw [hname]
  dsimp only
  rw [unpack_of_files hfiles]
  cases hwrite : t.unpackAt dir parts content with
  | error f =>
      refine .inr (.inl ⟨.file f, ?_, rfl⟩)
      rintro ⟨⟩
      exact FileTree.ne_notText_of_unpackAt hwrite rfl
  | ok u =>
      simp only [Except.mapError_ok, Except.ok_bind]
      rcases FileTree.readText_of_unpackAt hwrite ((Path.ofString s).within dir) with
        ⟨hread, place, hplace⟩ | ⟨f, hf, hread⟩ | ⟨place, node, hplace, hnode, hne, hread⟩
      · exact .inl ⟨by rw [hread]; rfl, u, place, FileTree.keepsDirectories_of_unpackAt hwrite,
          hplace⟩
      · refine .inr (.inl ⟨.file f, ?_, by rw [hread]; rfl⟩)
        rintro ⟨⟩
        exact hf rfl
      · have hlast := isText_name_within (List.find?_some hname) dir
        obtain ⟨hempty, hup⟩ := ne_of_isText hlast
        rw [Path.eq_child_of_name hempty] at hplace
        exact .inr (.inr ⟨place, node,
          ⟨_, FileTree.getLast?_of_locate_child hup hplace, hlast⟩, hnode, hne, by rw [hread]⟩)

/-- Of a file that is unpacked under a plain name its content is read. -/
theorem textOf_of_isPlain (hdir : t.IsEmptyDirectory dir)
    (htemporary : FileTree.IsTemporary dir)
    (hname : a.names.find? isText = some s) (hplain : (Path.ofString s).IsPlain)
    (hfiles : a.files dir s = .ok [((Path.ofString s).parts, content)]) :
    textOf t dir p a = textFrom content := by
  have hparts := parts_ne_nil_of_isText (List.find?_some hname)
  have hcheck : FileTree.checkPath ⟨1, dir ++ (Path.ofString s).parts⟩ = .ok () := by
    rw [htemporary.checkPath_iff hparts, ← Path.text_of_relative hplain.relative hparts]
    exact ⟨hplain.null, hplain.fits⟩
  obtain ⟨u, hwrite, hlookup⟩ :=
    hdir.exists_unpackAt hparts hplain.down hplain.short hcheck content
  unfold textOf
  rw [hname]
  dsimp only
  rw [unpack_of_files hfiles, hwrite, Path.within, if_pos hplain.relative]
  simp only [Except.mapError_ok, Except.ok_bind, FileTree.readText, hlookup]
  rfl

/-! ### The first text -/

/-- What is read of an archive is the text of it in a temporary directory. -/
theorem extract_of_isArchive (h : IsArchive t p a) :
    ∃ made dir, extract t p = textOf made dir p a ∧ made.IsEmptyDirectory dir ∧
      FileTree.IsTemporary dir ∧ t.MakesOnly made := by
  obtain ⟨⟨made, dir⟩, hmade⟩ := h.room
  obtain ⟨hdir, htemporary, hmakes⟩ := FileTree.makeTemporary_eq_ok hmade
  refine ⟨made, dir, ?_, hdir, htemporary, hmakes⟩
  rw [extract, hmade]
  simp only [Except.mapError_ok, Except.ok_bind, h.ending, hmakes.extends.lookup h.found, if_true]

/-- What a zip and a tar archive show of the first text's name: the last member of that name; and
otherwise, if its name is not plain, nothing but what was in the files before. -/
theorem extract_cases (hkind : kind ≠ .sevenZip)
    (hfirst : members.find? (fun m => isText m.name) = some first)
    (hlast : members.reverse.find? (fun m => m.name == first.name) = some last)
    (h : IsArchive t p ⟨kind, members⟩) :
    extract t p = textFrom last.content ∨ ¬(Path.ofString first.name).IsPlain ∧
      ((∃ f, extract t p = .error f) ∨ ∃ place content,
        t.node? place = some (.file content) ∧ extract t p = textFrom content) := by
  obtain ⟨made, dir, hextract, hdir, htemporary, hmakes⟩ := extract_of_isArchive h
  have hname := find?_isText_names_of_ne hkind hfirst
  rw [hextract]
  by_cases hplain : (Path.ofString first.name).IsPlain
  · exact .inl (textOf_of_isPlain hdir htemporary hname hplain
      (files_of_isPlain hkind hplain htemporary.up_not_mem hlast))
  · rcases files_cases dir hkind hlast with ⟨parts, hfiles⟩ | hrefused
    · rcases textOf_cases (t := made) (p := p) hname hfiles with
        ⟨hread, -⟩ | ⟨f, -, hread⟩ | ⟨place, node, -, hnode, hne, hread⟩
      · exact .inl hread
      · exact .inr ⟨hplain, .inl ⟨f, hread⟩⟩
      · refine .inr ⟨hplain, ?_⟩
        have hthere := hmakes.node?_of_ne_directory hnode hne
        cases node with
        | directory => exact absurd rfl hne
        | file content => exact .inr ⟨place, content, hthere, hread⟩
        | archive b => exact .inl ⟨_, hread⟩
    · refine .inr ⟨hplain, .inl ⟨.unreadable p, ?_⟩⟩
      rw [textOf, hname]
      simp only [Archive.unpack, hrefused]
      rfl

/-- What zip archives show of the first text's name and content.  It is enough to look at one that
is beside nothing but the directory for temporary ones. -/
theorem of_extract_zip (hfirst : members.find? (fun m => isText m.name) = some first)
    (hlast : members.reverse.find? (fun m => m.name == first.name) = some last)
    (hread : ∀ t p, IsArchive t p ⟨.zip, members⟩ → extract t p = textFrom first.content) :
    (Path.ofString first.name).IsPlain ∧
      FileTree.decode last.content = FileTree.decode first.content := by
  let t : FileTree := ⟨[(["tmp"], .directory), (["a.zip"], .archive ⟨.zip, members⟩)], []⟩
  have harchive : IsArchive t ⟨0, ["a.zip"]⟩ ⟨.zip, members⟩ := ⟨rfl, rfl, _, rfl⟩
  obtain ⟨made, dir, hextract, hdir, htemporary, hmakes⟩ := extract_of_isArchive harchive
  have hname := find?_isText_names_of_ne (show ArchiveKind.zip ≠ .sevenZip by decide) hfirst
  have hfiles : Archive.files ⟨.zip, members⟩ dir first.name =
      .ok [((Path.ofString first.name).parts.filter (· != ".."), last.content)] := by
    rw [Archive.files, hlast]
  have htext := hextract.symm.trans (hread t _ harchive)
  rcases textOf_cases hname hfiles with
    ⟨hgiven, u, place, hkeeps, hput, hplace⟩ | ⟨f, hf, herror⟩ |
      ⟨place, node, hlast', hnode, hne, -⟩
  · exact ⟨isPlain_of_locate hdir htemporary hkeeps
      (parts_ne_nil_of_isText (List.find?_some hname)) hput hplace,
      decode_eq_of_textFrom (hgiven.symm.trans htext)⟩
  · exact absurd (eq_notText_of_textFrom (htext.symm.trans herror)) hf
  · -- the archive is no text, and nothing else was there
    have hthere := hmakes.node?_of_ne_directory hnode hne
    obtain ⟨part, hpart, hend⟩ := hlast'
    cases place with
    | nil => cases hpart
    | cons first rest =>
        change List.lookup (first :: rest) t.entries = some node at hthere
        simp only [t, List.lookup_cons, List.lookup_nil] at hthere
        split at hthere
        · cases hthere
          exact absurd rfl hne
        · split at hthere
          · next hzip =>
              rw [eq_of_beq hzip] at hpart
              cases hpart
              exact absurd hend (by decide)
          · cases hthere

/-- **An archive is read as its first text exactly when the text's name is plain and the last member
of that name has the same content.**  Without a text there is an error for every kind.  With one, a
zip and a tar archive give the last member of its name; only where the name is not plain may there
be an error instead, or the text of a file that the name leads to and that was there before.  So
they give the first text, in whatever files they are, if and only if its name is plain and the last
of its members has the same content.  A 7z archive gives the first text if its name is plain and no
other member has it.  What is read as the first text has the expressions that a text file of its
content has. -/
theorem extract_first_text (hlibrary : SevenZip.Documented) (members : List Member) :
    (members.find? (fun m => isText m.name) = none → ∀ kind t p, IsArchive t p ⟨kind, members⟩ →
      extract t p = .error (.noText kind)) ∧
    ∀ first, members.find? (fun m => isText m.name) = some first →
      ∃ last, members.reverse.find? (fun m => m.name == first.name) = some last ∧
      (∀ kind ≠ .sevenZip, ∀ t p, IsArchive t p ⟨kind, members⟩ →
        extract t p = textFrom last.content ∨ ¬(Path.ofString first.name).IsPlain ∧
          ((∃ f, extract t p = .error f) ∨ ∃ place content,
            t.node? place = some (.file content) ∧ extract t p = textFrom content)) ∧
      ((∀ kind ≠ .sevenZip, ∀ t p, IsArchive t p ⟨kind, members⟩ →
          extract t p = textFrom first.content) ↔
        (Path.ofString first.name).IsPlain ∧
          FileTree.decode last.content = FileTree.decode first.content) ∧
      ((Path.ofString first.name).IsPlain → (members.map Member.name).count first.name = 1 →
        ∀ t p, IsArchive t p ⟨.sevenZip, members⟩ → extract t p = textFrom first.content) ∧
      ∀ kind t p u q, IsArchive t p ⟨kind, members⟩ → extract t p = textFrom first.content →
        q.lastEnding = ".txt" → u.lookup q = .ok (.file first.content) →
          expressions t p = expressions u q := by
  have hnames (kind : ArchiveKind) : (Archive.names ⟨kind, members⟩).find? isText =
      (members.find? fun m => isText m.name).map Member.name := by
    rw [← find?_isText_names]
    cases kind with
    | zip | tarXz => rfl
    | sevenZip => rw [Archive.names, hlibrary.names]
  constructor
  · intro hnone kind t p h
    obtain ⟨made, dir, hextract, -⟩ := extract_of_isArchive h
    rw [hextract, textOf, hnames, hnone]
    rfl
  intro first hfirst
  obtain ⟨last, hlast⟩ := exists_last (List.mem_of_find?_eq_some hfirst)
  refine ⟨last, hlast, fun kind hkind t p h => extract_cases hkind hfirst hlast h, ⟨?_, ?_⟩, ?_, ?_⟩
  · exact fun hread => of_extract_zip hfirst hlast (hread .zip (by decide))
  · rintro ⟨hplain, hcontent⟩ kind hkind t p h
    rcases extract_cases hkind hfirst hlast h with hread | ⟨hnot, -⟩
    · rw [hread, textFrom, hcontent, textFrom]
    · exact absurd hplain hnot
  · intro hplain hown t p h
    obtain ⟨made, dir, hextract, hdir, htemporary, -⟩ := extract_of_isArchive h
    rw [hextract]
    exact textOf_of_isPlain hdir htemporary (by rw [hnames, hfirst]; rfl) hplain
      (hlibrary.files members first (List.mem_of_find?_eq_some hfirst) hplain hown)
  · intro kind t p u q h hread htext hfile
    rw [expressions, if_neg (by simpa using lastEnding_ne_of_kindOf? h.ending), hread, expressions,
      if_pos (by simpa using htext), FileTree.readText, hfile]
    rfl

end Files

/-! ### The library of the program -/

/-- A path that leads only down is its own resolution. -/
theorem resolved?_of_down {p : Path} (h : ".." ∉ p.parts) : p.resolved? = some p.parts := by
  have hfold (parts : List String) (h : ".." ∉ parts) (place : List String) :
      parts.foldlM (fun place part =>
        if part == ".." then (if place.isEmpty then none else some place.dropLast)
        else some (place ++ [part])) place = some (place ++ parts) := by
    induction parts generalizing place with
    | nil => exact congrArg some (List.append_nil place).symm
    | cons part parts ih =>
        obtain ⟨hpart, hparts⟩ := not_or.mp (mt List.mem_cons.mpr h)
        rw [List.foldlM_cons, if_neg (by simpa using Ne.symm hpart)]
        simpa using ih hparts (place ++ [part])
  exact hfold p.parts h []

/-- The program's own library does what the documentation says. -/
theorem documented_own : SevenZip.Documented where
  names _ := rfl
  files members m hm hplain hown := by
    simp only [SevenZip.files, (find?_of_own hm hown).1, resolved?_of_down hplain.down,
      hplain.relative, if_true]

/-- A text in a directory, behind a member that is no text: it is read of archives of every kind. -/
theorem extract_first_text_in_directory :
    let first : Member := ⟨"data/a.txt", "1+1\n2*3".toUTF8⟩
    let members : List Member := [⟨"data/a.csv", .empty⟩, first]
    members.find? (fun m => isText m.name) = some first ∧
      ∀ kind name, (kind, name) ∈
          [(ArchiveKind.zip, "a.zip"), (.tarXz, "a.tar.xz"), (.sevenZip, "a.7z")] →
        let t : FileTree := ⟨[(["tmp"], .directory), ([name], .archive ⟨kind, members⟩)], []⟩
        IsArchive t ⟨0, [name]⟩ ⟨kind, members⟩ ∧ extract t ⟨0, [name]⟩ = .ok "1+1\n2*3" := by
  intro first members
  have hfirst : members.find? (fun m => isText m.name) = some first := by decide +kernel
  have hplain : (Path.ofString first.name).IsPlain := by
    refine ⟨?_, ?_, ?_, ?_, ?_⟩ <;> decide +kernel
  obtain ⟨last, hlast, -, hread, hseven, -⟩ :=
    (extract_first_text documented_own members).2 first hfirst
  obtain rfl : first = last := by
    rw [show members.reverse.find? (fun m => m.name == first.name) = some first by
      decide +kernel] at hlast
    exact Option.some.inj hlast
  have hcontent : textFrom first.content = .ok "1+1\n2*3" := by decide +kernel
  refine ⟨hfirst, fun kind name hkind => ?_⟩
  intro t
  have harchive : IsArchive t ⟨0, [name]⟩ ⟨kind, members⟩ := by
    simp only [List.mem_cons, Prod.mk.injEq, List.not_mem_nil, or_false] at hkind
    rcases hkind with ⟨rfl, rfl⟩ | ⟨rfl, rfl⟩ | ⟨rfl, rfl⟩ <;> exact ⟨rfl, rfl, _, rfl⟩
  refine ⟨harchive, Eq.trans ?_ hcontent⟩
  by_cases hsevenZip : kind = .sevenZip
  · subst hsevenZip
    exact hseven hplain (by decide +kernel) t _ harchive
  · exact hread.mpr ⟨hplain, rfl⟩ kind hsevenZip t _ harchive

/-- Two texts of one name: a zip archive gives the second. -/
theorem extract_text_of_same_name :
    let first : Member := ⟨"a.txt", "1+1".toUTF8⟩
    let a : Archive := ⟨.zip, [first, ⟨"a.txt", "2+2".toUTF8⟩]⟩
    let t : FileTree := ⟨[(["tmp"], .directory), (["a.zip"], .archive a)], []⟩
    let p : Path := ⟨0, ["a.zip"]⟩
    IsArchive t p a ∧ a.members.find? (fun m => isText m.name) = some first ∧
      FileTree.decode first.content = .ok "1+1" ∧ extract t p = .ok "2+2" := by
  dsimp only
  refine ⟨⟨rfl, rfl, _, rfl⟩, ?_, ?_, ?_⟩ <;> decide +kernel

end Batch

end Abacus
