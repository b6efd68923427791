import TreeShell.Proofs.Markup.Fragments
import TreeShell.Proofs.Session.Fold
import TreeShell.Proofs.Tree.Naming

/-! # What `ls` shows in a session

Listing a directory adds one line for each of its entries to the transcript, in the order of the
tree. Read as markup the line is one segment, whose color tells a directory from a file and whose
text is the name. So nothing about names and kinds is lost: the lines tell what is listed. -/

namespace TreeShell

/-- What a listing tells of an entry: its name, and whether it is a directory. -/
def kind (entry : String × Node) : String × Bool := (entry.1, entry.2.isDirectory)

/-- How an entry of a kind is to be shown. -/
def shownAs : String × Bool → Markup.Segment
  | (name, true) => ⟨some .blue, name ++ "/"⟩
  | (name, false) => ⟨none, name⟩

theorem shownAs_injective : Function.Injective shownAs := by
  rintro ⟨name, _ | _⟩ ⟨other, _ | _⟩ h
  · rw [(Markup.Segment.mk.inj h).2]
  · cases (Markup.Segment.mk.inj h).1
  · cases (Markup.Segment.mk.inj h).1
  · have htext : name ++ "/" = other ++ "/" := (Markup.Segment.mk.inj h).2
    rw [← String.toList_inj, String.toList_append, String.toList_append] at htext
    rw [String.toList_inj.1 (List.append_cancel_right htext)]

/-- The name stays on its line and is no markup. -/
def IsPrintable (name : String) : Prop := '\n' ∉ name.toList ∧ '\x1b' ∉ name.toList

namespace Builtin

variable {entry : String × Node}

theorem segments_listing (hname : '\x1b' ∉ entry.1.toList) (hne : entry.1 ≠ "") :
    Markup.segments (listing entry) = [shownAs (kind entry)] := by
  obtain ⟨name, node⟩ := entry
  cases node with
  | file content => exact Markup.segments_plain hname hne
  | directory children =>
    have hslash : '\x1b' ∉ (name ++ "/").toList := by
      simpa using hname
    have hfilled : name ++ "/" ≠ "" := by simp
    have hcode : Markup.blue < 100 := by decide
    exact Markup.segments_paint hcode hslash hfilled

theorem newline_not_mem_listing (hname : '\n' ∉ entry.1.toList) :
    '\n' ∉ (listing entry).toList := by
  obtain ⟨name, node⟩ := entry
  cases node with
  | file content => exact hname
  | directory children =>
    have hcode : Nat.toDigits 10 Markup.blue = ['3', '4'] := by decide
    simpa [listing, Node.isDirectory, Markup.paint, hcode] using hname

theorem ls_run {c : Context} {children : List (String × Node)}
    (h : c.fs.lookup c.cwd = some (.directory children)) :
    ls.run c = .success (Text.join "\n" (children.map listing)) := by
  simp [ls, h, Node.children?]

end Builtin

namespace Session

variable {t : Session} {children : List (String × Node)} {line : String} {operands : List String}

/-- What a submitted line adds to the transcript below its echo. -/
def added (t : Session) (line : String) : List String :=
  (t.submit line).2.transcript.drop (t.transcript.length + 1)

theorem transcript_submit_ls (hdirectory : t.fs.lookup t.cwd = some (.directory children))
    (hwords : Text.words line = "ls" :: operands) :
    (t.submit line).2.transcript = t.transcript ++ (t.prompt ++ " " ++ line) ::
      Text.split '\n' (Text.join "\n" (children.map Builtin.listing)) := by
  have hblank : isBlankLine line = false := by
    rw [isBlankLine, beq_eq_false_iff_ne, ne_eq, Text.trim_eq_empty_iff_words, hwords]
    exact List.cons_ne_nil _ _
  have hget : Registry.builtin.get? "ls" = some Builtin.ls := rfl
  have hrun := Builtin.ls_run (c := ⟨operands, t.cwd, t.fs⟩) hdirectory
  rw [submit_of_not_blank hblank, interpret_of_words hwords hget, hrun]
  simp [adopt, Interpretation.ofOutcome, Outcome.success]

/-- The session has come about by creating it in a tree that edits have built, and by actions. -/
def Reached (t : Session) : Prop :=
  ∃ edits options s actions, options.fs = FileSystem.empty.edited edits ∧ create options = .ok s ∧
    t = (s.performAll actions).2

theorem Reached.isComponent (h : Reached t)
    (hdirectory : t.fs.lookup t.cwd = some (.directory children)) :
    ∀ name ∈ Entries.names children, Path.IsComponent name := by
  obtain ⟨edits, options, s, actions, hfs, hcreate, rfl⟩ := h
  have hsame : (s.performAll actions).2.fs = FileSystem.empty.edited edits :=
    ((stands_create hcreate).performAll actions).same.trans hfs
  intro name hname
  rw [hsame] at hdirectory
  obtain ⟨e, he, rfl⟩ := List.mem_map.1 hname
  refine FileSystem.isComponent_of_mem_edited edits e.1 ?_
  exact (Node.mem_names_of_descend? hdirectory).2 e.1 (Node.mem_namesIn.2 ⟨e, he, Or.inl rfl⟩)

/-- The session stands in a directory with the given entries, there are some, and the name of each
one is plain. -/
structure StandsAmong (t : Session) (children : List (String × Node)) : Prop where
  reached : Reached t
  directory : t.fs.lookup t.cwd = some (.directory children)
  filled : children ≠ []
  plain : ∀ name ∈ Entries.names children, IsPrintable name

theorem StandsAmong.transcript (h : t.StandsAmong children)
    (hwords : Text.words line = "ls" :: operands) :
    (t.submit line).2.transcript =
      t.transcript ++ (t.prompt ++ " " ++ line) :: children.map Builtin.listing := by
  have hlines : ∀ shown ∈ children.map Builtin.listing, '\n' ∉ shown.toList := by
    intro shown hshown
    obtain ⟨e, he, rfl⟩ := List.mem_map.1 hshown
    exact Builtin.newline_not_mem_listing (h.plain e.1 (List.mem_map_of_mem he)).1
  have hsplit : Text.split '\n' (Text.join "\n" (children.map Builtin.listing)) =
      children.map Builtin.listing :=
    Text.split_join (by simpa using h.filled) hlines
  rw [transcript_submit_ls h.directory hwords, hsplit]

theorem StandsAmong.segments (h : t.StandsAmong children) :
    (children.map Builtin.listing).map Markup.segments =
      children.map fun entry => [shownAs (kind entry)] := by
  rw [List.map_map]
  refine List.map_congr_left fun e he => ?_
  have hname : e.1 ∈ Entries.names children := List.mem_map_of_mem he
  exact Builtin.segments_listing (h.plain e.1 hname).2
    (h.reached.isComponent h.directory e.1 hname).1

theorem StandsAmong.added (h : t.StandsAmong children)
    (hwords : Text.words line = "ls" :: operands) :
    t.added line = children.map Builtin.listing := by
  rw [Session.added, h.transcript hwords, List.drop_append]
  simp

/-- What is shown tells the names and the kinds. -/
theorem map_kind_of_map_shownAs {others : List (String × Node)}
    (h : (children.map fun entry => [shownAs (kind entry)]) =
      others.map fun entry => [shownAs (kind entry)]) : children.map kind = others.map kind := by
  have hinjective : Function.Injective fun k => [shownAs k] :=
    fun k l hkl => shownAs_injective (List.singleton_inj.1 hkl)
  apply List.map_injective_iff.2 hinjective
  rw [List.map_map, List.map_map]
  exact h

/-- Listing the directory of a session shows its entries line by line, each line one segment that
tells the name and the kind of its entry. So the same lines are shown only for the same names and
kinds in the same order. -/
theorem ls_shows_entries (h : t.StandsAmong children)
    (hwords : Text.words line = "ls" :: operands) :
    (∃ lines, (t.submit line).2.transcript = t.transcript ++ (t.prompt ++ " " ++ line) :: lines ∧
      lines.map Markup.segments = children.map fun entry => [shownAs (kind entry)]) ∧
    ∀ t' children' line' operands', StandsAmong t' children' →
      Text.words line' = "ls" :: operands' → children.map kind ≠ children'.map kind →
        t.added line ≠ t'.added line' := by
  refine ⟨⟨children.map Builtin.listing, h.transcript hwords, h.segments⟩, ?_⟩
  intro t' children' line' operands' h' hwords' hkinds hsame
  rw [h.added hwords, h'.added hwords'] at hsame
  apply hkinds
  apply map_kind_of_map_shownAs
  calc (children.map fun entry => [shownAs (kind entry)])
      = (children.map Builtin.listing).map Markup.segments := h.segments.symm
    _ = (children'.map Builtin.listing).map Markup.segments := by rw [hsame]
    _ = children'.map fun entry => [shownAs (kind entry)] := h'.segments

/-- A file and a directory whose names look like parts of escapes. -/
def lookalikes : List Edit := [.insertFile "/[0m" "x", .insertDirectory "/34m 1"]

/-- A session at the root of a tree in its standard settings. -/
def atRoot (fs : FileSystem) : Session := ⟨"/", fs, {}, .standard, 5, [], [], none, []⟩

theorem ls_shows_entries_lookalikes :
    let t := ((atRoot (FileSystem.empty.edited lookalikes)).performAll
      [.submit "cd ..", .submit " "]).2
    (t.StandsAmong [("[0m", .file "x"), ("34m 1", .directory [])] ∧
      Text.words " ls -l" = "ls" :: ["-l"]) ∧
    ∃ lines, (t.submit " ls -l").2.transcript = ["/¶ cd ..", "", "/¶ ", "/¶  ls -l"] ++ lines ∧
      lines.map Markup.segments = [[⟨none, "[0m"⟩], [⟨some .blue, "34m 1/"⟩]] := by
  intro t
  have hcreate : create { cwd := "/", fs := FileSystem.empty.edited lookalikes } =
      .ok (atRoot (FileSystem.empty.edited lookalikes)) := rfl
  have hcwd : t.cwd = "/" := rfl
  have hfs : t.fs = ⟨.directory [("[0m", .file "x"), ("34m 1", .directory [])]⟩ := rfl
  have hstands : t.StandsAmong [("[0m", .file "x"), ("34m 1", .directory [])] :=
    { reached := ⟨lookalikes, _, _, _, rfl, hcreate, rfl⟩
      directory := by
        rw [hcwd, hfs]
        rfl
      filled := by simp
      plain := by simp [Entries.names, IsPrintable] }
  have hwords : Text.words " ls -l" = "ls" :: ["-l"] := rfl
  obtain ⟨lines, htranscript, hsegments⟩ := (ls_shows_entries hstands hwords).1
  exact ⟨⟨hstands, hwords⟩, lines, htranscript.trans rfl, hsegments.trans rfl⟩

end Session

end TreeShell
