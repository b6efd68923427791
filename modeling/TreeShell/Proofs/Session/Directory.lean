import TreeShell.Proofs.Shell.Outcome
import TreeShell.Session.Action

/-! # The directory of a session

The directory of a session is a canonical path of a directory in the tree that the session was
created with, after any actions. -/

/-! ## Runs, action by action -/

namespace TreeShell.Session

/-- The session that has the given options and has been through nothing yet. -/
def fresh (options : SessionOptions) : Session :=
  ⟨Path.normalize "/" options.cwd, options.fs, options.settings, options.latency, options.window,
    [], [], none, []⟩

theorem eq_fresh_of_create {options : SessionOptions} {s : Session} (h : create options = .ok s) :
    s = fresh options := by
  unfold create at h
  dsimp only at h
  split at h
  · cases h
  · split at h
    · exact (Except.ok.inj h).symm
    · cases h

/-- Whether there is a session depends on the directory and the tree alone. -/
theorem create_of_create {options others : SessionOptions} {s : Session}
    (h : create options = .ok s) (hcwd : others.cwd = options.cwd) (hfs : others.fs = options.fs) :
    create others = .ok (fresh others) := by
  unfold create at h
  dsimp only at h
  split at h
  · cases h
  · rename_i node hnode
    split at h
    · rename_i hdirectory
      simp only [create, fresh, hcwd, hfs, hnode, hdirectory, if_true]
    · cases h

theorem perform_submit (s : Session) (line : String) :
    s.perform (.submit line) = (.interpreted (s.submit line).1, (s.submit line).2) := by
  cases h : s.submit line
  simp only [perform, h]

theorem performAll_cons (s : Session) (a : Action) (actions : List Action) :
    s.performAll (a :: actions) = ((s.perform a).1 :: ((s.perform a).2.performAll actions).1,
      ((s.perform a).2.performAll actions).2) := by
  cases h : s.perform a
  simp only [performAll, h]

theorem performAll_append (s : Session) (before after : List Action) :
    s.performAll (before ++ after) =
      ((s.performAll before).1 ++ ((s.performAll before).2.performAll after).1,
        ((s.performAll before).2.performAll after).2) := by
  induction before generalizing s with
  | nil => rfl
  | cons a before ih =>
    rw [List.cons_append, performAll_cons, performAll_cons, ih]
    rfl

end TreeShell.Session

/-! ## The directory -/

namespace TreeShell

namespace Session

/-- The session stands in a directory of the tree it was created with. -/
structure Stands (fs : FileSystem) (s : Session) : Prop where
  canonical : Path.IsCanonical s.cwd
  directory : s.fs.HasDirectory s.cwd
  same : s.fs = fs

theorem stands_create {options : SessionOptions} {s : Session}
    (h : create options = .ok s) : s.Stands options.fs := by
  unfold create at h
  dsimp only at h
  split at h
  · cases h
  · rename_i node hnode
    split at h
    · rename_i hdir
      obtain rfl := Except.ok.inj h
      cases node with
      | file content => cases hdir
      | directory children =>
        exact ⟨Path.isCanonical_normalize _ _, ⟨children, hnode⟩, rfl⟩
    · cases h

/-- The directory and the tree come from the interpretation alone. -/
theorem Stands.submit {fs : FileSystem} {s : Session} (h : s.Stands fs) (line : String) :
    (s.submit line).2.Stands fs := by
  unfold Session.submit
  split
  · exact ⟨h.canonical, h.directory, h.same⟩
  · have hkeep := interpret_fs line s.cwd s.fs
    rcases interpret_cwd line s.cwd s.fs with hcwd | ⟨hpath, hdir⟩
    · refine ⟨?_, ?_, hkeep.trans h.same⟩
      · simpa only [adopt, hcwd] using h.canonical
      · simpa only [adopt, hcwd, hkeep] using h.directory
    · refine ⟨hpath, ?_, hkeep.trans h.same⟩
      simpa only [adopt, hkeep] using hdir

theorem Stands.perform {fs : FileSystem} {s : Session} (h : s.Stands fs) (a : Action) :
    (s.perform a).2.Stands fs := by
  cases a with
  | submit line => simpa only [perform_submit] using h.submit line
  | historyUp =>
    simp only [Session.perform, historyUp]
    split <;> exact ⟨h.canonical, h.directory, h.same⟩
  | historyDown =>
    simp only [Session.perform, historyDown]
    split <;> exact ⟨h.canonical, h.directory, h.same⟩
  | recentHistory => exact h
  | takeNotifications => exact ⟨h.canonical, h.directory, h.same⟩
  | setSettings settings => exact ⟨h.canonical, h.directory, h.same⟩

theorem Stands.performAll {fs : FileSystem} {s : Session} (h : s.Stands fs)
    (actions : List Action) : (s.performAll actions).2.Stands fs := by
  induction actions generalizing s with
  | nil => exact h
  | cons a actions ih =>
    rw [performAll_cons]
    exact ih (h.perform a)

/-! ### No interpretation replaces the tree -/

theorem replaced?_of_perform {s : Session} {a : Action} {i : Interpretation}
    (h : (s.perform a).1 = .interpreted (some i)) : i.replaced? = none := by
  cases a with
  | submit line =>
    rw [perform_submit] at h
    have hsubmit := Reply.interpreted.inj h
    unfold submit at hsubmit
    split at hsubmit
    · cases hsubmit
    · obtain rfl := Option.some.inj hsubmit
      exact interpret_replaced? line s.cwd s.fs
  | _ => cases h

theorem replaced?_of_mem_replies {s : Session} {actions : List Action} {i : Interpretation}
    (h : .interpreted (some i) ∈ (s.performAll actions).1) : i.replaced? = none := by
  induction actions generalizing s with
  | nil => cases h
  | cons a actions ih =>
    rw [performAll_cons] at h
    rcases List.mem_cons.1 h with h | h
    · exact replaced?_of_perform h.symm
    · exact ih h

/-! ### Commands that cannot fail -/

theorem submit_of_parse {line name : String} {args : List String} {command : Command}
    (hblank : isBlankLine line = false) (hparse : Invocation.parse? line = some ⟨name, args⟩)
    (hget : Registry.builtin.get? name = some command) (s : Session) :
    s.submit line = (some (.ofOutcome s.cwd (command.run ⟨args, s.cwd, s.fs⟩)),
      s.adopt line (.ofOutcome s.cwd (command.run ⟨args, s.cwd, s.fs⟩))) := by
  simp only [submit, hblank, Bool.false_eq_true, if_false, interpret_of_parse hparse hget]

theorem ls_run_of_hasDirectory {c : Context} (h : c.fs.HasDirectory c.cwd) :
    ∃ output, Builtin.ls.run c = .success output := by
  obtain ⟨children, hdir⟩ := h
  exact ⟨Text.join "\n" (children.map Builtin.listing), by simp [Builtin.ls, hdir, Node.children?]⟩

theorem cd_run_dot {c : Context} (hargs : c.args.headD Builtin.home = ".")
    (hcwd : Path.IsCanonical c.cwd) (h : c.fs.HasDirectory c.cwd) :
    Builtin.cd.run c = .changeDirectory c.cwd := by
  obtain ⟨children, hdir⟩ := h
  rw [Builtin.cd_run hargs, Path.normalize_dot hcwd, hdir]

theorem Stands.submit_ls {fs : FileSystem} {s : Session} (h : s.Stands fs) :
    ∃ i, (s.submit "ls").1 = some i ∧ i.error? = none := by
  have hblank : isBlankLine "ls" = false := rfl
  have hparse : Invocation.parse? "ls" = some ⟨"ls", []⟩ := rfl
  have hget : Registry.builtin.get? "ls" = some Builtin.ls := rfl
  have hline := submit_of_parse hblank hparse hget s
  obtain ⟨output, hout⟩ := ls_run_of_hasDirectory (c := ⟨[], s.cwd, s.fs⟩) h.directory
  rw [hout] at hline
  refine ⟨.ofOutcome s.cwd (.success output), ?_, rfl⟩
  rw [hline]

theorem Stands.submit_cd_dot {fs : FileSystem} {s : Session} (h : s.Stands fs) :
    (∃ i, (s.submit "cd .").1 = some i ∧ i.error? = none) ∧ (s.submit "cd .").2.cwd = s.cwd := by
  have hblank : isBlankLine "cd ." = false := rfl
  have hparse : Invocation.parse? "cd ." = some ⟨"cd", ["."]⟩ := rfl
  have hget : Registry.builtin.get? "cd" = some Builtin.cd := rfl
  have hline := submit_of_parse hblank hparse hget s
  have hcd := cd_run_dot (c := ⟨["."], s.cwd, s.fs⟩) rfl h.canonical h.directory
  rw [hcd] at hline
  rw [hline]
  exact ⟨⟨.ofOutcome s.cwd (.changeDirectory s.cwd), rfl, rfl⟩, rfl⟩

/-- After any actions the directory of a session is canonical and is there in the tree that the
session was created with, so to list it or to stay in it never fails. -/
theorem stands_in_a_directory {options : SessionOptions} {s : Session}
    (h : create options = .ok s) (actions : List Action) :
    let t := (s.performAll actions).2
    (Path.IsCanonical t.cwd ∧ t.fs.HasDirectory t.cwd ∧ t.fs = options.fs) ∧
      (∀ i, .interpreted (some i) ∈ (s.performAll actions).1 → i.replaced? = none) ∧
      (∃ i, (t.submit "ls").1 = some i ∧ i.error? = none) ∧
      (∃ i, (t.submit "cd .").1 = some i ∧ i.error? = none) ∧ (t.submit "cd .").2.cwd = t.cwd := by
  intro t
  have ht : t.Stands options.fs := (stands_create h).performAll actions
  exact ⟨⟨ht.canonical, ht.directory, ht.same⟩, fun i hi => replaced?_of_mem_replies hi,
    ht.submit_ls, ht.submit_cd_dot⟩

/-- A tree with entries that a path cannot name. -/
def dotted : FileSystem :=
  ⟨.directory [("a", .directory [(".", .file ""), ("..", .directory []), ("b", .directory [])])]⟩

def dottedStart : Session := ⟨"/a", dotted, {}, .standard, 5, [], [], none, []⟩

theorem create_dotted : create { cwd := "a/./b/../..//a/", fs := dotted } = .ok dottedStart := rfl

theorem stands_in_a_directory_dotted :
    let t := (dottedStart.performAll [.submit "cd b/..", .historyUp, .submit "cat .. x"]).2
    create { cwd := "a/./b/../..//a/", fs := dotted } = .ok dottedStart ∧
      (Path.IsCanonical t.cwd ∧ t.fs.HasDirectory t.cwd ∧ t.fs = dotted) ∧
      (∃ i, (t.submit "ls").1 = some i ∧ i.error? = none) ∧
      (∃ i, (t.submit "cd .").1 = some i ∧ i.error? = none) ∧
      (t.submit "cd .").2.cwd = t.cwd :=
  have h := stands_in_a_directory create_dotted
    [.submit "cd b/..", .historyUp, .submit "cat .. x"]
  ⟨create_dotted, h.1, h.2.2⟩

end Session

end TreeShell
