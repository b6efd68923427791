import TreeShell.Proofs.Path.Canonical
import TreeShell.Shell.Interpret

/-! # What built-in commands leave behind

A built-in command never puts a tree in place of the one it was given, and the only directories
it changes to are canonical paths of directories in that tree. The same then holds of whole
lines, whatever directory they are interpreted in. -/

namespace TreeShell

namespace Registry

theorem mem_of_get?_registerAll {r : Registry} {commands : List Command} {name : String}
    {command : Command} (h : (r.registerAll commands).get? name = some command) :
    command ∈ commands ∨ r.get? name = some command := by
  rw [get?_registerAll, Option.or_eq_some_iff] at h
  exact h.imp (fun h => List.mem_reverse.1 (List.mem_of_find?_eq_some h)) And.right

theorem mem_all_of_get? {name : String} {command : Command}
    (h : builtin.get? name = some command) : command ∈ Builtin.all := by
  rcases mem_of_get?_registerAll h with h | h
  · exact h
  · cases h

theorem name_of_get? {r : Registry} {name : String} {command : Command}
    (h : r.get? name = some command) : command.name = name := by
  simpa using List.find?_some h

theorem get?_registerAll_eq_none_iff {r : Registry} {commands : List Command} {name : String} :
    (r.registerAll commands).get? name = none ↔
      r.get? name = none ∧ name ∉ commands.map Command.name := by
  rw [get?_registerAll, Option.or_eq_none_iff, List.find?_eq_none, and_comm]
  simp

end Registry

namespace Builtin

/-- What `cd` does is decided by the node at the normalized path of its target. -/
theorem cd_run {c : Context} {target : String} (htarget : c.args.headD home = target) :
    cd.run c = match c.fs.lookup (Path.normalize c.cwd target) with
      | none => .failure (.pathNotFound "cd" target)
      | some (.file _) => .failure (.notADirectory "cd" target)
      | some (.directory _) => .changeDirectory (Path.normalize c.cwd target) := by
  simp only [cd, FileSystem.resolve, htarget]
  cases hnode : c.fs.lookup (Path.normalize c.cwd target) with
  | none => rfl
  | some node =>
    cases node with
    | file content =>
      by_cases hslash : Path.endsInSlash target = true
      · simp [hslash, Node.isFile, ShellError.ofPath]
      · simp [hslash, hnode]
    | directory children => simp [Node.isFile, hnode]

/-- What may come of the built-in command called `name`: only `cd` changes the directory, only
`clear` clears the screen, and all others end in a success or in an error of their own. -/
inductive Yields (c : Context) (name : String) : Outcome → Prop
  | entered {path : String} (hname : name = "cd") (hpath : Path.IsCanonical path)
      (hdir : c.fs.HasDirectory path) : Yields c name (.changeDirectory path)
  | cleared (hname : name = "clear") : Yields c name .clearScreen
  | failed {e : ShellError} (hname : name ≠ "clear") (hown : ∀ n, e ≠ .unknownCommand n) :
      Yields c name (.failure e)
  | showed {output : String} (hcd : name ≠ "cd") (hclear : name ≠ "clear") :
      Yields c name (.success output)

theorem ofPath_ne_unknownCommand (command : String) (e : PathError) (name : String) :
    ShellError.ofPath command e ≠ .unknownCommand name := by
  cases e <;> exact nofun

theorem yields_ls (c : Context) : Yields c "ls" (ls.run c) := by
  unfold ls
  dsimp only
  split
  · exact .showed (by decide) (by decide)
  · exact .failed (by decide) nofun

theorem yields_cd (c : Context) : Yields c "cd" (cd.run c) := by
  rw [cd_run rfl]
  split
  · exact .failed (by decide) nofun
  · exact .failed (by decide) nofun
  · rename_i children hdir
    exact .entered rfl (Path.isCanonical_normalize _ _) ⟨children, hdir⟩

theorem yields_cat (c : Context) : Yields c "cat" (cat.run c) := by
  unfold cat
  dsimp only
  split
  · exact .failed (by decide) nofun
  · split
    · exact .failed (by decide) (ofPath_ne_unknownCommand _ _)
    · split
      · exact .showed (by decide) (by decide)
      · exact .failed (by decide) nofun
      · exact .failed (by decide) nofun

theorem yields_run {command : Command} (h : command ∈ all) (c : Context) :
    Yields c command.name (command.run c) := by
  simp only [all, List.mem_cons, List.not_mem_nil, or_false] at h
  rcases h with rfl | rfl | rfl | rfl | rfl | rfl | rfl
  · exact .showed (by decide) (by decide)
  · exact yields_ls c
  · exact yields_cd c
  · exact .showed (by decide) (by decide)
  · exact yields_cat c
  · exact .cleared rfl
  · exact .showed (by decide) (by decide)

end Builtin

/-- A line has no words, starts with a word that names no command, or runs the built-in command
that its first word names. -/
theorem interpret_cases (line cwd : String) (fs : FileSystem) :
    (Text.words line = [] ∧ interpret line cwd fs = .idle cwd) ∨
    (∃ name args, Text.words line = name :: args ∧ name ∉ Builtin.all.map Command.name ∧
      interpret line cwd fs = .unknown cwd name) ∨
    ∃ command args, Text.words line = command.name :: args ∧ command ∈ Builtin.all ∧
      interpret line cwd fs = .ofOutcome cwd (command.run ⟨args, cwd, fs⟩) := by
  unfold interpret Registry.interpret Invocation.parse?
  cases hwords : Text.words line with
  | nil => exact Or.inl ⟨rfl, rfl⟩
  | cons name args =>
    right
    cases hget : Registry.builtin.get? name with
    | none =>
      have hname := (Registry.get?_registerAll_eq_none_iff.1 hget).2
      exact Or.inl ⟨name, args, rfl, hname, by simp [hget]⟩
    | some command =>
      have hname := Registry.name_of_get? hget
      exact Or.inr ⟨command, args, by rw [hname], Registry.mem_all_of_get? hget, by simp [hget]⟩

theorem interpret_replaced? (line cwd : String) (fs : FileSystem) :
    (interpret line cwd fs).replaced? = none := by
  rcases interpret_cases line cwd fs with
    ⟨-, h⟩ | ⟨name, args, -, -, h⟩ | ⟨command, args, -, hmem, h⟩
  · rw [h]
    rfl
  · rw [h]
    rfl
  · have hrun := Builtin.yields_run hmem ⟨args, cwd, fs⟩
    rw [h]
    generalize command.run ⟨args, cwd, fs⟩ = o at hrun ⊢
    cases hrun <;> rfl

theorem interpret_fs (line cwd : String) (fs : FileSystem) :
    (interpret line cwd fs).fs fs = fs := by
  rw [Interpretation.fs, interpret_replaced?]
  rfl

theorem interpret_cwd (line cwd : String) (fs : FileSystem) :
    (interpret line cwd fs).cwd = cwd ∨
      Path.IsCanonical (interpret line cwd fs).cwd ∧
        fs.HasDirectory (interpret line cwd fs).cwd := by
  rcases interpret_cases line cwd fs with
    ⟨-, h⟩ | ⟨name, args, -, -, h⟩ | ⟨command, args, -, hmem, h⟩
  · exact Or.inl (by rw [h]; rfl)
  · exact Or.inl (by rw [h]; rfl)
  · have hrun := Builtin.yields_run hmem ⟨args, cwd, fs⟩
    rw [h]
    generalize command.run ⟨args, cwd, fs⟩ = o at hrun ⊢
    cases hrun with
    | entered hname hpath hdir => exact Or.inr ⟨hpath, hdir⟩
    | cleared hname => exact Or.inl rfl
    | failed hname hown => exact Or.inl rfl
    | showed hcd hclear => exact Or.inl rfl

theorem interpret_clear_iff (line cwd : String) (fs : FileSystem) :
    (interpret line cwd fs).clear = true ↔ (Text.words line).head? = some "clear" := by
  rcases interpret_cases line cwd fs with
    ⟨hwords, h⟩ | ⟨name, args, hwords, hname, h⟩ | ⟨command, args, hwords, hmem, h⟩
  · rw [h, hwords]
    exact iff_of_false nofun nofun
  · rw [h, hwords, List.head?_cons, Option.some.injEq]
    refine iff_of_false nofun ?_
    rintro rfl
    exact hname (by decide)
  · have hrun := Builtin.yields_run hmem ⟨args, cwd, fs⟩
    rw [h, hwords, List.head?_cons, Option.some.injEq]
    generalize command.run ⟨args, cwd, fs⟩ = o at hrun ⊢
    cases hrun with
    | entered hname hpath hdir => exact iff_of_false nofun (by rw [hname]; decide)
    | cleared hname => exact iff_of_true rfl hname
    | failed hname hown => exact iff_of_false nofun hname
    | showed hcd hclear => exact iff_of_false nofun hclear

/-- A line that clears the screen does not fail. -/
theorem interpret_error?_of_clear {line cwd : String} {fs : FileSystem}
    (hclear : (interpret line cwd fs).clear = true) : (interpret line cwd fs).error? = none := by
  rcases interpret_cases line cwd fs with
    ⟨-, h⟩ | ⟨name, args, -, -, h⟩ | ⟨command, args, -, hmem, h⟩
  · rw [h]
    rfl
  · rw [h] at hclear
    cases hclear
  · have hrun := Builtin.yields_run hmem ⟨args, cwd, fs⟩
    rw [h] at hclear ⊢
    generalize command.run ⟨args, cwd, fs⟩ = o at hrun hclear ⊢
    cases hrun with
    | failed hname hown => cases hclear
    | entered hname hpath hdir => rfl
    | cleared hname => rfl
    | showed hcd hclear => rfl

theorem Registry.interpret_of_get?_eq_none {r : Registry} {line name : String} {args : List String}
    (hwords : Text.words line = name :: args) (hget : r.get? name = none) (cwd : String)
    (fs : FileSystem) : r.interpret line cwd fs = .unknown cwd name := by
  simp only [Registry.interpret, Invocation.parse?, hwords, hget]

theorem Registry.interpret_of_get?_eq_some {r : Registry} {line name : String} {args : List String}
    {command : Command} (hwords : Text.words line = name :: args)
    (hget : r.get? name = some command) (cwd : String) (fs : FileSystem) :
    r.interpret line cwd fs = .ofOutcome cwd (command.run ⟨args, cwd, fs⟩) := by
  simp only [Registry.interpret, Invocation.parse?, hwords, hget]

theorem interpret_of_parse {line name : String} {args : List String} {command : Command}
    (hparse : Invocation.parse? line = some ⟨name, args⟩)
    (hget : Registry.builtin.get? name = some command) (cwd : String) (fs : FileSystem) :
    interpret line cwd fs = .ofOutcome cwd (command.run ⟨args, cwd, fs⟩) := by
  simp only [interpret, Registry.interpret, hparse, hget]

theorem interpret_of_words {line name : String} {args : List String} {command : Command}
    (hwords : Text.words line = name :: args)
    (hget : Registry.builtin.get? name = some command) (cwd : String) (fs : FileSystem) :
    interpret line cwd fs = .ofOutcome cwd (command.run ⟨args, cwd, fs⟩) :=
  Registry.interpret_of_get?_eq_some hwords hget cwd fs

end TreeShell
