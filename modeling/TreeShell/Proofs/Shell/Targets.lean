import TreeShell.Proofs.Path.Normal
import TreeShell.Proofs.Shell.Outcome
import TreeShell.Proofs.Text.Words
import TreeShell.Tree.Edit

/-! # What `cat` and `cd` make of a target

Both commands look at the node at the normalized path of their operand, and at nothing else of the
line. A directory is for `cd` and a file for `cat`, unless the operand ends in a slash and so asks
for a directory; each of them refuses the target with the operand as it was typed. -/

namespace TreeShell

namespace Builtin

/-- What `cat` does is decided by the node at the normalized path of its first operand. -/
theorem cat_run {c : Context} {target : String} {more : List String}
    (hargs : c.args = target :: more) :
    cat.run c = match c.fs.lookup (Path.normalize c.cwd target) with
      | none => .failure (.pathNotFound "cat" target)
      | some (.file content) =>
        if Path.endsInSlash target then .failure (.notADirectory "cat" target)
        else .success content
      | some (.directory _) => .failure (.isADirectory "cat" target) := by
  simp only [cat, FileSystem.resolve, hargs]
  cases hnode : c.fs.lookup (Path.normalize c.cwd target) with
  | none => rfl
  | some node =>
    cases node with
    | file content =>
      by_cases hslash : Path.endsInSlash target = true
      · simp [hslash, Node.isFile, ShellError.ofPath]
      · simp [hslash, hnode]
    | directory children => simp [Node.isFile, hnode]

end Builtin

namespace Interpretation

/-- The line fails and changes nothing. -/
def refused (cwd : String) (error : ShellError) : Interpretation :=
  ⟨"", cwd, some error, false, none⟩

/-- The line shows a text and changes nothing. -/
def shown (cwd output : String) : Interpretation := ⟨output, cwd, none, false, none⟩

/-- The line goes to a directory and shows nothing. -/
def moved (target : String) : Interpretation := ⟨"", target, none, false, none⟩

@[simp] theorem ofOutcome_failure (cwd : String) (error : ShellError) :
    ofOutcome cwd (.failure error) = refused cwd error :=
  rfl

@[simp] theorem ofOutcome_success (cwd output : String) :
    ofOutcome cwd (.success output) = shown cwd output :=
  rfl

@[simp] theorem ofOutcome_changeDirectory (cwd target : String) :
    ofOutcome cwd (.changeDirectory target) = moved target :=
  rfl

end Interpretation

open Interpretation (refused shown moved)

/-- What `cat` and `cd` come to in `cwd`, given the node at the normalized path of their target. -/
structure Classified (node? : Option Node) (cwd target : String) (cat cd : Interpretation) :
    Prop where
  missing : node? = none →
    cat = refused cwd (.pathNotFound "cat" target) ∧ cd = refused cwd (.pathNotFound "cd" target)
  directory : ∀ children, node? = some (.directory children) →
    cat = refused cwd (.isADirectory "cat" target) ∧ cd = moved (Path.normalize cwd target)
  file : ∀ content, node? = some (.file content) → Path.endsInSlash target = false →
    cat = shown cwd content ∧ cd = refused cwd (.notADirectory "cd" target)
  /-- Only a directory may have a slash after it. -/
  slashed : ∀ content, node? = some (.file content) → Path.endsInSlash target = true →
    cat = refused cwd (.notADirectory "cat" target) ∧ cd = refused cwd (.notADirectory "cd" target)

theorem classified_run (fs : FileSystem) (cwd target : String) :
    Classified (fs.lookup (Path.normalize cwd target)) cwd target
      (.ofOutcome cwd (Builtin.cat.run ⟨[target], cwd, fs⟩))
      (.ofOutcome cwd (Builtin.cd.run ⟨[target], cwd, fs⟩)) := by
  have hcat := Builtin.cat_run (c := ⟨[target], cwd, fs⟩) rfl
  have hcd := Builtin.cd_run (c := ⟨[target], cwd, fs⟩) rfl
  constructor
  · intro hnode
    simp [hcat, hcd, hnode]
  · intro children hnode
    simp [hcat, hcd, hnode]
  · intro content hnode hslash
    simp [hcat, hcd, hnode, hslash]
  · intro content hnode hslash
    simp [hcat, hcd, hnode, hslash]

theorem Classified.not_both {node? : Option Node} {cwd target : String} {cat cd : Interpretation}
    (h : Classified node? cwd target cat cd) : ¬ (cat.error? = none ∧ cd.error? = none) := by
  rintro ⟨hcat, hcd⟩
  rcases node? with _ | content | children
  · rw [(h.missing rfl).1] at hcat
    cases hcat
  · cases hslash : Path.endsInSlash target with
    | false =>
      rw [(h.file content rfl hslash).2] at hcd
      cases hcd
    | true =>
      rw [(h.slashed content rfl hslash).2] at hcd
      cases hcd
  · rw [(h.directory children rfl).1] at hcat
    cases hcat

/-! ## Lines -/

section
variable {line target : String} {more : List String}

/-- Only the first operand counts. -/
theorem interpret_cat (hwords : Text.words line = "cat" :: target :: more) (cwd : String)
    (fs : FileSystem) :
    interpret line cwd fs = .ofOutcome cwd (Builtin.cat.run ⟨[target], cwd, fs⟩) := by
  have hget : Registry.builtin.get? "cat" = some Builtin.cat := rfl
  rw [interpret_of_words hwords hget, Builtin.cat_run (c := ⟨target :: more, cwd, fs⟩) rfl,
    Builtin.cat_run (c := ⟨[target], cwd, fs⟩) rfl]

theorem interpret_cd_of_words (hwords : Text.words line = "cd" :: target :: more) (cwd : String)
    (fs : FileSystem) :
    interpret line cwd fs = .ofOutcome cwd (Builtin.cd.run ⟨[target], cwd, fs⟩) := by
  have hget : Registry.builtin.get? "cd" = some Builtin.cd := rfl
  have hfirst (rest : List String) :
      (⟨target :: rest, cwd, fs⟩ : Context).args.headD Builtin.home = target := rfl
  rw [interpret_of_words hwords hget, Builtin.cd_run (hfirst more), Builtin.cd_run (hfirst [])]

end

/-- The line that gives the command `name` one operand. -/
def call (name target : String) : String := name ++ " " ++ target

theorem words_call {name target : String} (hname : Text.IsWord name)
    (htarget : Text.IsWord target) :
    Text.words (call name target) = [name, target] :=
  Text.words_pair hname htarget

/-- `cat` and `cd` classify every target alike: it is missing for both, or a directory, to which
`cd` goes, or a file, which `cat` shows; a file with a slash after it is for neither. What stands
on the line after the target does not matter. -/
theorem cat_and_cd_classify_alike (fs : FileSystem) (cwd target : String) (h : Text.IsWord target) :
    Classified (fs.lookup (Path.normalize cwd target)) cwd target
      (interpret (call "cat" target) cwd fs) (interpret (call "cd" target) cwd fs) ∧
    ¬ ((interpret (call "cat" target) cwd fs).error? = none ∧
      (interpret (call "cd" target) cwd fs).error? = none) ∧
    ∀ name line more, name = "cat" ∨ name = "cd" → Text.words line = name :: target :: more →
      interpret line cwd fs = interpret (call name target) cwd fs := by
  have hcat := interpret_cat (words_call ⟨by decide, by simp; decide⟩ h) cwd fs
  have hcd := interpret_cd_of_words (words_call ⟨by decide, by simp; decide⟩ h) cwd fs
  have hkind : Classified (fs.lookup (Path.normalize cwd target)) cwd target
      (interpret (call "cat" target) cwd fs) (interpret (call "cd" target) cwd fs) := by
    rw [hcat, hcd]
    exact classified_run fs cwd target
  refine ⟨hkind, hkind.not_both, ?_⟩
  rintro name line more (rfl | rfl) hline
  · rw [hcat, interpret_cat hline]
  · rw [hcd, interpret_cd_of_words hline]

/-- A file under its own name and with a slash after it, from beside it and with a word behind. -/
theorem cat_and_cd_classify_alike_slash :
    let fs := FileSystem.empty.edited [.insertFile "/a/b" "x", .insertDirectory "/c"]
    (Text.IsWord ".././/a/b/" ∧ Text.IsWord ".././/a/b" ∧ Text.IsWord "../a/") ∧
      interpret "cat .././/a/b/" "/c" fs = refused "/c" (.notADirectory "cat" ".././/a/b/") ∧
      interpret "cd .././/a/b/ /" "/c" fs = refused "/c" (.notADirectory "cd" ".././/a/b/") ∧
      interpret " cat\t.././/a/b /" "/c" fs = shown "/c" "x" ∧
      interpret "cd ../a/ x" "/c" fs = moved "/a" := by
  intro fs
  have hslashed : Text.IsWord ".././/a/b/" := ⟨by decide, by simp; decide⟩
  have hfile : Text.IsWord ".././/a/b" := ⟨by decide, by simp; decide⟩
  have hdirectory : Text.IsWord "../a/" := ⟨by decide, by simp; decide⟩
  obtain ⟨hslash, -, hslashLines⟩ := cat_and_cd_classify_alike fs "/c" ".././/a/b/" hslashed
  obtain ⟨hplain, -, hplainLines⟩ := cat_and_cd_classify_alike fs "/c" ".././/a/b" hfile
  obtain ⟨hdir, -, hdirectoryLines⟩ := cat_and_cd_classify_alike fs "/c" "../a/" hdirectory
  refine ⟨⟨hslashed, hfile, hdirectory⟩, ?_, ?_, ?_, ?_⟩
  · rw [hslashLines "cat" _ [] (.inl rfl) rfl]
    exact (hslash.slashed "x" rfl rfl).1
  · rw [hslashLines "cd" _ ["/"] (.inr rfl) rfl]
    exact (hslash.slashed "x" rfl rfl).2
  · rw [hplainLines "cat" _ ["/"] (.inl rfl) rfl]
    exact (hplain.file "x" rfl rfl).1
  · rw [hdirectoryLines "cd" _ ["x"] (.inr rfl) rfl]
    exact (hdir.directory [("b", .file "x")] rfl).2

end TreeShell

/-! ## Moving through a tree

The line `cd path` succeeds exactly if there is a directory at the normalized path, and then it goes
there. So of two such lines the second, given relative to where the first leads, can be put into
one with the joined path. -/

namespace TreeShell

/-- The line `cd path`, interpreted in the directory `cwd` of a tree, succeeds and goes to `target`. -/
def GoesTo (fs : FileSystem) (cwd path target : String) : Prop :=
  (interpret ("cd " ++ path) cwd fs).error? = none ∧
    (interpret ("cd " ++ path) cwd fs).cwd = target

theorem interpret_cd {path : String} (h : Text.IsWord path) (cwd : String) (fs : FileSystem) :
    interpret ("cd " ++ path) cwd fs = .ofOutcome cwd (Builtin.cd.run ⟨[path], cwd, fs⟩) := by
  have hcd : Text.IsWord "cd" := ⟨by decide, by simp; decide⟩
  have hspace : "cd " = "cd" ++ " " := by
    rw [← String.toList_inj]
    simp
  have hwords : Text.words ("cd " ++ path) = ["cd", path] := by
    rw [hspace, Text.words_pair hcd h]
  exact interpret_cd_of_words hwords cwd fs

theorem goesTo_iff {fs : FileSystem} {cwd path target : String} (h : Text.IsWord path) :
    GoesTo fs cwd path target ↔
      fs.HasDirectory (Path.normalize cwd path) ∧ Path.normalize cwd path = target := by
  have hrun := Builtin.cd_run (c := ⟨[path], cwd, fs⟩) rfl
  rw [GoesTo, interpret_cd h, hrun]
  cases hnode : fs.lookup (Path.normalize cwd path) with
  | none => simp [FileSystem.HasDirectory, hnode, Interpretation.ofOutcome, Outcome.failure]
  | some node =>
    cases node with
    | file content =>
      simp [FileSystem.HasDirectory, hnode, Interpretation.ofOutcome, Outcome.failure]
    | directory children =>
      simp [FileSystem.HasDirectory, hnode, Interpretation.ofOutcome, Outcome.changeDirectory]

theorem isWord_join {p q : String} (hp : Text.IsWord p) (hq : Text.IsWord q) :
    Text.IsWord (Path.join p q) := by
  obtain ⟨hne, hfirst⟩ := hp
  obtain ⟨-, hsecond⟩ := hq
  have hslash : Text.isBlank '/' = false := by decide
  unfold Path.join
  constructor
  · have happend (rest : String) : p ++ rest ≠ "" := fun h => hne (String.append_eq_empty_iff.1 h).1
    split
    · exact happend q
    · rw [String.append_assoc]
      exact happend ("/" ++ q)
  · intro c hc
    split at hc <;> simp only [String.toList_append, List.mem_append] at hc
    · exact hc.elim (hfirst c) (hsecond c)
    · rcases hc with (hc | hc) | hc
      · exact hfirst c hc
      · obtain rfl : c = '/' := by simpa using hc
        exact hslash
      · exact hsecond c hc

theorem goesTo_join {fs : FileSystem} {cwd p q middle target : String} (hp : Text.IsWord p)
    (hq : Text.IsWord q) (hrelative : Path.isAbsolute q = false)
    (hfirst : GoesTo fs cwd p middle) (hsecond : GoesTo fs middle q target) :
    GoesTo fs cwd (Path.join p q) target := by
  obtain ⟨-, rfl⟩ := (goesTo_iff hp).1 hfirst
  rw [goesTo_iff hq, ← Path.normalize_join hp.1 hrelative] at hsecond
  exact (goesTo_iff (isWord_join hp hq)).2 hsecond

/-- Paths compose: a joined path normalizes as its parts do one after the other, and `cd` with it
succeeds where `cd` with its parts does and ends in the same directory. -/
theorem cd_composes :
    (∀ cwd p q, p ≠ "" → Path.isAbsolute q = false →
      Path.normalize cwd (Path.join p q) = Path.normalize (Path.normalize cwd p) q) ∧
    ∀ fs cwd p q middle target, Text.IsWord p → Text.IsWord q → Path.isAbsolute q = false →
      GoesTo fs cwd p middle → GoesTo fs middle q target → GoesTo fs cwd (Path.join p q) target :=
  ⟨fun cwd _ _ hp hq => Path.normalize_join hp hq cwd,
    fun _ _ _ _ _ _ hp hq hrelative => goesTo_join hp hq hrelative⟩

/-- Up past the root and down into another directory, from below the first one. -/
theorem cd_composes_past_root :
    let fs := FileSystem.empty.edited [.insertDirectory "/a/b", .insertDirectory "/c"]
    (Path.isAbsolute "../../c/." = false ∧ Path.normalize "/a" (Path.join "b/.." "../../c/.") =
      Path.normalize (Path.normalize "/a" "b/..") "../../c/.") ∧
      (Text.IsWord "b/.." ∧ Text.IsWord "../../c/.") ∧ GoesTo fs "/a" "b/.." "/a" ∧
        GoesTo fs "/a" "../../c/." "/c" ∧ GoesTo fs "/a" (Path.join "b/.." "../../c/.") "/c" := by
  intro fs
  have hrelative : Path.isAbsolute "../../c/." = false := rfl
  have hp : Text.IsWord "b/.." := ⟨by decide, by simp; decide⟩
  have hq : Text.IsWord "../../c/." := ⟨by decide, by simp; decide⟩
  have hfirst : GoesTo fs "/a" "b/.." "/a" := (goesTo_iff hp).2 ⟨⟨_, rfl⟩, by decide⟩
  have hsecond : GoesTo fs "/a" "../../c/." "/c" := (goesTo_iff hq).2 ⟨⟨_, rfl⟩, by decide⟩
  exact ⟨⟨hrelative, cd_composes.1 "/a" _ _ hp.1 hrelative⟩, ⟨hp, hq⟩, hfirst, hsecond,
    cd_composes.2 fs "/a" _ _ _ _ hp hq hrelative hfirst hsecond⟩

end TreeShell
