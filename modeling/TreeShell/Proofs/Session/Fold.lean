import TreeShell.Proofs.Session.Directory
import TreeShell.Proofs.Text.Words

/-! # A session folds its lines

What a session answers, the directory it ends in and the history it keeps come from the lines that
are submitted to it and are not blank. All other actions, the settings, the window and the latency
leave them alone: two runs with the same lines from the same start agree in all of these. -/

namespace TreeShell

/-- The line that an action has interpreted. -/
def Action.line? : Action → Option String
  | .submit line => if Session.isBlankLine line then none else some line
  | _ => none

/-- The lines that are interpreted, in the order of the actions. -/
def submitted (actions : List Action) : List String := actions.filterMap Action.line?

def Reply.interpretation? : Reply → Option Interpretation
  | .interpreted result => result
  | _ => none

def interpretations (replies : List Reply) : List Interpretation :=
  replies.filterMap Reply.interpretation?

/-- The directory that the last interpretation leads to, or `start` without any. -/
def lastDirectory (start : String) (is : List Interpretation) : String :=
  (is.getLast?.map Interpretation.cwd).getD start

theorem submitted_cons (a : Action) (actions : List Action) :
    submitted (a :: actions) = a.line?.toList ++ submitted actions := by
  unfold submitted
  cases h : a.line? with
  | none => exact List.filterMap_cons_none h
  | some line => exact List.filterMap_cons_some h

theorem interpretations_cons (reply : Reply) (replies : List Reply) :
    interpretations (reply :: replies) =
      reply.interpretation?.toList ++ interpretations replies := by
  unfold interpretations
  cases h : reply.interpretation? with
  | none => exact List.filterMap_cons_none h
  | some i => exact List.filterMap_cons_some h

theorem lastDirectory_append (start : String) (is js : List Interpretation) :
    lastDirectory start (is ++ js) = lastDirectory (lastDirectory start is) js := by
  unfold lastDirectory
  rw [List.getLast?_append]
  cases js.getLast? <;> rfl

theorem lastDirectory_cons (start : String) (i : Interpretation) (is : List Interpretation) :
    lastDirectory start (i :: is) = lastDirectory i.cwd is :=
  lastDirectory_append start [i] is

/-! ## Scripts of the built-in commands -/

namespace Session

/-- The interpretations of lines one after the other, from `cwd` in a tree. -/
abbrev script (lines : List String) (cwd : String) (fs : FileSystem) : List Interpretation :=
  Registry.builtin.script lines cwd fs

theorem script_cons (line : String) (lines : List String) (cwd : String) (fs : FileSystem) :
    script (line :: lines) cwd fs =
      interpret line cwd fs :: script lines (interpret line cwd fs).cwd fs := by
  change _ :: script lines (interpret line cwd fs).cwd ((interpret line cwd fs).fs fs) = _
  rw [interpret_fs]
  rfl

theorem script_append (before after : List String) (cwd : String) (fs : FileSystem) :
    script (before ++ after) cwd fs =
      script before cwd fs ++ script after (lastDirectory cwd (script before cwd fs)) fs := by
  induction before generalizing cwd with
  | nil => rfl
  | cons line before ih =>
    rw [List.cons_append, script_cons, script_cons, ih, lastDirectory_cons, List.cons_append]

theorem script_toList (line? : Option String) (cwd : String) (fs : FileSystem) :
    script line?.toList cwd fs = (line?.map fun line => interpret line cwd fs).toList := by
  cases line? <;> rfl

/-- A line of a script is interpreted in the directory that the lines before it lead to. -/
theorem getElem?_script (lines : List String) (cwd : String) (fs : FileSystem) (k : Nat) :
    (script lines cwd fs)[k]? = lines[k]?.map fun line =>
      interpret line (lastDirectory cwd ((script lines cwd fs).take k)) fs := by
  induction lines generalizing cwd k with
  | nil => rfl
  | cons line lines ih =>
    rw [script_cons]
    cases k with
    | zero => rfl
    | succ k =>
      rw [List.getElem?_cons_succ, List.getElem?_cons_succ, List.take_succ_cons,
        lastDirectory_cons]
      exact ih _ k

variable {s t u : Session} {actions : List Action} {replies : List Reply}

/-! ## Blank lines -/

/-- The lines that a session takes for blank are those that invoke nothing. -/
theorem isBlankLine_iff {line : String} :
    isBlankLine line = true ↔ Invocation.parse? line = none := by
  rw [isBlankLine, beq_iff_eq, Text.trim_eq_empty_iff_words, Invocation.parse?]
  cases Text.words line with
  | nil => simp
  | cons name args => simp

theorem submit_of_blank {line : String} (h : isBlankLine line = true) (s : Session) :
    s.submit line = (none, { s with transcript := s.transcript ++ [s.prompt ++ " "] }) := by
  simp only [submit, h, if_true]

theorem submit_of_not_blank {line : String} (h : isBlankLine line = false) (s : Session) :
    s.submit line = (some (interpret line s.cwd s.fs),
      s.adopt line (interpret line s.cwd s.fs)) := by
  simp only [submit, h, Bool.false_eq_true, if_false]

/-! ## One action -/

/-- What one action comes to: with a line the interpretation of that line where the session is, and
without one nothing. -/
structure Adopts (s : Session) (line? : Option String) (reply : Reply) (t : Session) : Prop where
  answer : reply.interpretation? = line?.map fun line => interpret line s.cwd s.fs
  cwd : t.cwd = lastDirectory s.cwd reply.interpretation?.toList
  fs : t.fs = s.fs
  history : t.history = line?.toList ++ s.history

theorem adopts_perform (s : Session) (a : Action) :
    s.Adopts a.line? (s.perform a).1 (s.perform a).2 := by
  cases a with
  | submit line =>
    rw [perform_submit, Action.line?]
    cases h : isBlankLine line with
    | true =>
      rw [submit_of_blank h]
      exact ⟨rfl, rfl, rfl, rfl⟩
    | false =>
      rw [submit_of_not_blank h]
      exact ⟨rfl, rfl, interpret_fs line s.cwd s.fs, rfl⟩
  | historyUp =>
    simp only [perform, historyUp]
    split <;> exact ⟨rfl, rfl, rfl, rfl⟩
  | historyDown =>
    simp only [perform, historyDown]
    split <;> exact ⟨rfl, rfl, rfl, rfl⟩
  | recentHistory => exact ⟨rfl, rfl, rfl, rfl⟩
  | takeNotifications => exact ⟨rfl, rfl, rfl, rfl⟩
  | setSettings settings => exact ⟨rfl, rfl, rfl, rfl⟩

/-! ## Runs -/

/-- What a run from `s` answers and where it ends at `t`, told by its lines alone. -/
structure Folds (s : Session) (actions : List Action) (replies : List Reply) (t : Session) :
    Prop where
  answered : replies.map (·.interpretation?.isSome) = actions.map (·.line?.isSome)
  results : interpretations replies = script (submitted actions) s.cwd s.fs
  cwd : t.cwd = lastDirectory s.cwd (interpretations replies)
  fs : t.fs = s.fs
  history : t.history = (submitted actions).reverse ++ s.history

theorem Folds.cons {a : Action} {reply : Reply} (ha : s.Adopts a.line? reply t)
    (h : t.Folds actions replies u) : s.Folds (a :: actions) (reply :: replies) u where
  answered := by
    rw [List.map_cons, List.map_cons, h.answered, ha.answer, Option.isSome_map]
  results := by
    rw [interpretations_cons, submitted_cons, script_append, script_toList, ← ha.answer, ← ha.cwd,
      h.results, ha.fs]
  cwd := by rw [interpretations_cons, lastDirectory_append, ← ha.cwd, h.cwd]
  fs := h.fs.trans ha.fs
  history := by
    rw [h.history, ha.history, submitted_cons, List.reverse_append, List.append_assoc]
    cases a.line? <;> rfl

theorem folds_performAll (s : Session) (actions : List Action) :
    s.Folds actions (s.performAll actions).1 (s.performAll actions).2 := by
  induction actions generalizing s with
  | nil => exact ⟨rfl, rfl, rfl, rfl, rfl⟩
  | cons a actions ih =>
    rw [performAll_cons]
    exact Folds.cons (s.adopts_perform a) (ih _)

/-- A run that starts in the directory `start` of a tree is the fold of `interpret` over its
lines. -/
structure IsFold (start : String) (fs : FileSystem) (actions : List Action) (replies : List Reply)
    (t : Session) : Prop where
  /-- An interpretation is the answer to a submit of a line that is not blank, and to nothing
  else. -/
  answered : replies.map (·.interpretation?.isSome) = actions.map (·.line?.isSome)
  first : (interpretations replies)[0]? =
    (submitted actions)[0]?.map fun line => interpret line start fs
  /-- The next line is interpreted in the directory that the one before it leads to. -/
  next : ∀ k i, (interpretations replies)[k]? = some i → (interpretations replies)[k + 1]? =
    (submitted actions)[k + 1]?.map fun line => interpret line i.cwd fs
  cwd : t.cwd = lastDirectory start (interpretations replies)
  fs : t.fs = fs
  history : t.history = (submitted actions).reverse

theorem lastDirectory_take_succ {start : String} {is : List Interpretation} {k : Nat}
    {i : Interpretation} (h : is[k]? = some i) : lastDirectory start (is.take (k + 1)) = i.cwd := by
  rw [List.take_add_one, h, Option.toList_some, lastDirectory_append]
  rfl

theorem Folds.isFold (h : s.Folds actions replies t) (hhistory : s.history = []) :
    IsFold s.cwd s.fs actions replies t where
  answered := h.answered
  first := by
    rw [h.results, getElem?_script]
    rfl
  next k i hi := by
    rw [h.results] at hi ⊢
    rw [getElem?_script, lastDirectory_take_succ hi]
  cwd := h.cwd
  fs := h.fs
  history := by rw [h.history, hhistory, List.append_nil]

theorem performAll_blank {line : String} (h : isBlankLine line = true) (s : Session)
    (before : List Action) :
    let t := (s.performAll before).2
    s.performAll (before ++ [.submit line]) = ((s.performAll before).1 ++ [.interpreted none],
      { t with transcript := t.transcript ++ [t.prompt ++ " "] }) := by
  intro t
  rw [performAll_append, performAll_cons, perform_submit, submit_of_blank h]
  rfl

theorem fresh_of_create {options : SessionOptions} (h : create options = .ok s) :
    s.cwd = Path.normalize "/" options.cwd ∧ s.fs = options.fs ∧ s.history = [] := by
  rw [eq_fresh_of_create h]
  exact ⟨rfl, rfl, rfl⟩

/-- A session answers the lines submitted to it by the fold of `interpret` over those that are not
blank, which are those that invoke something. After any actions a blank line has no answer and adds
an echo to the transcript, nothing else. So two sessions that start in the same directory of
the same tree agree in all interpretations, and in the directory and the history in the end, as soon
as they are given the same lines, whatever else is done with them and whatever their settings. -/
theorem folds_its_lines {options : SessionOptions} {s : Session} (h : create options = .ok s)
    (actions : List Action) :
    let run := s.performAll actions
    let start := Path.normalize "/" options.cwd
    IsFold start options.fs actions run.1 run.2 ∧
      (∀ line, isBlankLine line = true ↔ Invocation.parse? line = none) ∧
      (∀ line, isBlankLine line = true →
        s.performAll (actions ++ [.submit line]) = (run.1 ++ [.interpreted none],
          { run.2 with transcript := run.2.transcript ++ [run.2.prompt ++ " "] })) ∧
      ∀ options' s' actions', create options' = .ok s' →
        Path.normalize "/" options'.cwd = start → options'.fs = options.fs →
        submitted actions' = submitted actions →
        let run' := s'.performAll actions'
        interpretations run'.1 = interpretations run.1 ∧ run'.2.cwd = run.2.cwd ∧
          run'.2.history = run.2.history := by
  intro run start
  obtain ⟨hcwd, hfs, hhistory⟩ := fresh_of_create h
  have hrun : s.Folds actions run.1 run.2 := s.folds_performAll actions
  have hfold : IsFold start options.fs actions run.1 run.2 := by
    have hfold := hrun.isFold hhistory
    rwa [hcwd, hfs] at hfold
  refine ⟨hfold, fun line => isBlankLine_iff, fun line hline => ?_, ?_⟩
  · exact performAll_blank hline s actions
  · intro options' s' actions' h' hstart hsame hlines run'
    obtain ⟨hcwd', hfs', hhistory'⟩ := fresh_of_create h'
    have hrun' : s'.Folds actions' run'.1 run'.2 := s'.folds_performAll actions'
    have hfrom : s'.cwd = s.cwd := hcwd'.trans (hstart.trans hcwd.symm)
    have hin : s'.fs = s.fs := hfs'.trans (hsame.trans hfs.symm)
    have hresults : interpretations run'.1 = interpretations run.1 := by
      rw [hrun'.results, hrun.results, hlines, hfrom, hin]
    refine ⟨hresults, ?_, ?_⟩
    · rw [hrun'.cwd, hrun.cwd, hresults, hfrom]
    · rw [hrun'.history, hrun.history, hlines, hhistory', hhistory]

def nested : FileSystem := ⟨.directory [("a", .directory [("b", .directory [])])]⟩

/-- A session in `/a` as it is created by default. -/
def standard : Session := ⟨"/a", nested, {}, .standard, 5, [], [], none, []⟩

/-- A session in `/a` with all the rest set in another way. -/
def tuned : Session := ⟨"/a", nested, ⟨20, .powershell, .bar⟩, .none, 0, [], [], none, []⟩

theorem create_standard : create { cwd := "/a", fs := nested } = .ok standard := rfl

theorem create_tuned : create ⟨"a//b/..", nested, ⟨20, .powershell, .bar⟩, .none, 0⟩ = .ok tuned :=
  rfl

theorem folds_its_lines_tuned :
    let run := standard.performAll [.submit "cd b", .submit "pwd"]
    let run' := tuned.performAll [.submit "cd b", .submit " \t", .historyUp, .setSettings {},
      .takeNotifications, .submit "pwd", .historyDown]
    interpretations run.1 = [⟨"", "/a/b", none, false, none⟩, ⟨"/a/b", "/a/b", none, false, none⟩] ∧
      interpretations run'.1 = interpretations run.1 ∧ run'.2.cwd = run.2.cwd ∧
      run'.2.history = ["pwd", "cd b"] := by
  intro run run'
  obtain ⟨hfold, -, -, hsame⟩ :=
    folds_its_lines create_standard [.submit "cd b", .submit "pwd"]
  obtain ⟨hresults, hcwd, hhistory⟩ := hsame _ tuned [.submit "cd b", .submit " \t", .historyUp,
    .setSettings {}, .takeNotifications, .submit "pwd", .historyDown] create_tuned rfl rfl rfl
  exact ⟨rfl, hresults, hcwd, hhistory.trans hfold.history⟩

end Session

end TreeShell
