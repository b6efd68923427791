import TreeShell.Proofs.Shell.Outcome

/-! # Lines that fail change nothing

Whatever line is interpreted, in whatever directory and tree, an error leaves the directory, the
screen and the tree as they were. Its message is the only trace, and only that of an unknown command
is also output. A directory is left only by a `cd` that fails nowhere. -/

namespace TreeShell

namespace Interpretation

/-- What the interpretation of `line` in the directory `cwd` of a tree may say and change. -/
structure IsAtomic (line cwd : String) (fs : FileSystem) (i : Interpretation) : Prop where
  /-- The tree is the one that was given. -/
  tree : i.replaced? = none
  failed : ∀ e, i.error? = some e → i.cwd = cwd ∧ i.clear = false
  /-- Errors of commands come without output. -/
  silent : ∀ e, i.error? = some e → (∀ name, e ≠ .unknownCommand name) → i.output = ""
  reported : ∀ name, i.error? = some (.unknownCommand name) →
    i.output = Markup.paint Markup.red (ShellError.unknownCommand name).message
  /-- A command is unknown when the first word of the line names none of the built-in ones. -/
  unknown : ∀ name, i.error? = some (.unknownCommand name) ↔
    (Text.words line).head? = some name ∧ name ∉ Builtin.all.map Command.name
  cleared : i.clear = true ↔ (Text.words line).head? = some "clear"
  moved : i.cwd ≠ cwd → (Text.words line).head? = some "cd" ∧ i.error? = none
  /-- A `cd` that does not fail ends in a directory of the tree and shows nothing. -/
  entered : (Text.words line).head? = some "cd" → i.error? = none →
    Path.IsCanonical i.cwd ∧ fs.HasDirectory i.cwd ∧ i.output = ""

variable {line : String}

theorem isAtomic_idle (hwords : Text.words line = []) (cwd : String) (fs : FileSystem) :
    (idle cwd).IsAtomic line cwd fs where
  tree := rfl
  failed := nofun
  silent := nofun
  reported := nofun
  unknown := by simp [idle, hwords]
  cleared := by simp [idle, hwords]
  moved h := absurd rfl h
  entered := by simp [hwords]

theorem isAtomic_unknown {name : String} {args : List String}
    (hwords : Text.words line = name :: args) (hname : name ∉ Builtin.all.map Command.name)
    (cwd : String) (fs : FileSystem) : (unknown cwd name).IsAtomic line cwd fs where
  tree := rfl
  failed _ _ := ⟨rfl, rfl⟩
  silent e he hown := absurd (Option.some.inj he).symm (hown name)
  reported n he := by
    rw [← Option.some.inj he]
    rfl
  unknown n := by
    simp only [unknown, hwords, List.head?_cons, Option.some.injEq,
      ShellError.unknownCommand.injEq]
    exact ⟨fun h => ⟨h, h ▸ hname⟩, fun h => h.1⟩
  cleared := by
    have hclear : name ≠ "clear" := by
      rintro rfl
      exact hname (by decide)
    simp [unknown, hwords, hclear]
  moved h := absurd rfl h
  entered _ := nofun

/-- The law holds of a command's outcome because each command changes at most one thing. -/
theorem isAtomic_ofOutcome {command : Command} {args : List String}
    (hwords : Text.words line = command.name :: args) (hmem : command ∈ Builtin.all)
    (cwd : String) (fs : FileSystem) :
    (ofOutcome cwd (command.run ⟨args, cwd, fs⟩)).IsAtomic line cwd fs := by
  have hname : command.name ∈ Builtin.all.map Command.name := List.mem_map_of_mem hmem
  have hfirst : ∀ n, (Text.words line).head? = some n ↔ command.name = n := by simp [hwords]
  have hknown : ∀ n, ¬ ((Text.words line).head? = some n ∧ n ∉ Builtin.all.map Command.name) :=
    fun n h => h.2 ((hfirst n).1 h.1 ▸ hname)
  have hrun := Builtin.yields_run hmem ⟨args, cwd, fs⟩
  generalize command.run ⟨args, cwd, fs⟩ = o at hrun ⊢
  cases hrun with
  | entered hcd hpath hdir => exact
      { tree := rfl
        failed := nofun
        silent := nofun
        reported := nofun
        unknown := fun n => iff_of_false nofun (hknown n)
        cleared := by
          rw [hfirst, hcd]
          exact iff_of_false nofun (by decide)
        moved := fun _ => ⟨(hfirst _).2 hcd, rfl⟩
        entered := fun _ _ => ⟨hpath, hdir, rfl⟩ }
  | cleared hclear => exact
      { tree := rfl
        failed := nofun
        silent := nofun
        reported := nofun
        unknown := fun n => iff_of_false nofun (hknown n)
        cleared := iff_of_true rfl ((hfirst _).2 hclear)
        moved := fun h => absurd rfl h
        entered := by
          rw [hfirst, hclear]
          exact fun h => absurd h (by decide) }
  | failed hclear hown => exact
      { tree := rfl
        failed := fun _ _ => ⟨rfl, rfl⟩
        silent := fun _ _ _ => rfl
        reported := fun n he => absurd (Option.some.inj he) (hown n)
        unknown := fun n => iff_of_false (fun he => hown n (Option.some.inj he)) (hknown n)
        cleared := by
          rw [hfirst]
          exact iff_of_false nofun hclear
        moved := fun h => absurd rfl h
        entered := fun _ => nofun }
  | showed hcd hclear => exact
      { tree := rfl
        failed := nofun
        silent := nofun
        reported := nofun
        unknown := fun n => iff_of_false nofun (hknown n)
        cleared := by
          rw [hfirst]
          exact iff_of_false nofun hclear
        moved := fun h => absurd rfl h
        entered := fun h => absurd ((hfirst _).1 h) hcd }

end Interpretation

/-- Interpreting a line is atomic, for all lines, directories and trees, also when the directory is
no canonical path or is not there. -/
theorem interpret_isAtomic (line cwd : String) (fs : FileSystem) :
    (interpret line cwd fs).IsAtomic line cwd fs := by
  rcases interpret_cases line cwd fs with
    ⟨hwords, h⟩ | ⟨name, args, hwords, hname, h⟩ | ⟨command, args, hwords, hmem, h⟩
  · rw [h]
    exact Interpretation.isAtomic_idle hwords cwd fs
  · rw [h]
    exact Interpretation.isAtomic_unknown hwords hname cwd fs
  · rw [h]
    exact Interpretation.isAtomic_ofOutcome hwords hmem cwd fs

end TreeShell
