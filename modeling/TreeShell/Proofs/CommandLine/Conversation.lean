import Mathlib.Data.List.DropRight
import TreeShell.Proofs.CommandLine.Input
import TreeShell.Proofs.Session.Fold
import TreeShell.Proofs.Suggest.LastRequest
import TreeShell.Proofs.Suggest.Ranking

/-! # What a run answers to its input

The answer to a line of the input is told by the lines before it. A question is answered by the
local suggestions after the last five commands, a command by its interpretation in the directory
that the commands before it lead to, and a blank line by nothing. Neither questions nor blank lines
matter for any later answer. The session and the fetcher that a run threads through its lines come
to just that. -/

namespace TreeShell.CommandLine

open Suggest (Fetcher Provider)

inductive Answer where
  | nothing
  | suggestions (found : List String)
  | result (i : Interpretation)

/-- What a line asks suggestions for, if it starts with a question mark. -/
def question? (line : String) : Option String :=
  match line.toList with
  | '?' :: input => some (String.ofList input)
  | _ => none

/-- A command is neither a question nor blank. -/
def isCommand (line : String) : Bool := (question? line).isNone && !Session.isBlankLine line

def commands (lines : List String) : List String := lines.filter isCommand

/-- The directory that the commands among `before` lead to. -/
def directoryAfter (fs : FileSystem) (start : String) (before : List String) : String :=
  lastDirectory start (Session.script (commands before) start fs)

/-- How many commands go along with a question. -/
def historyLength : Nat := 5

/-- The suggestions for `input` after the lines `before`. -/
def suggestionsAfter (before : List String) (input : String) : List String :=
  if (Text.trim input).length < 2 then []
  else Provider.localAnswer Registry.builtin.names
    ⟨input, (commands before).rtake historyLength⟩

/-- What submitting a line in the directory `cwd` comes to. -/
def submission (fs : FileSystem) (cwd line : String) : Answer :=
  if Session.isBlankLine line then .nothing else .result (interpret line cwd fs)

/-- The answer to a line of the input after the lines `before`. -/
def answer (fs : FileSystem) (start : String) (before : List String) (line : String) : Answer :=
  match question? line with
  | some input => .suggestions (suggestionsAfter before input)
  | none => submission fs (directoryAfter fs start before) line

/-- The answers to lines that follow the lines `before`. -/
def conversation (fs : FileSystem) (start : String) : (before lines : List String) → List Answer
  | _, [] => []
  | before, line :: lines =>
    answer fs start before line :: conversation fs start (before ++ [line]) lines

/-- The lines up to the first that is no text or that says `exit`. -/
def heard (lines : List (Option String)) : List String :=
  (lines.takeWhile (·.any (!isExit ·))).filterMap id

/-- What an answer does to the world. -/
def Answer.effects (o : Options) (latency : Latency) : Answer → List Effect
  | nothing => []
  | suggestions found => [.print (Text.join "  " found ++ "\n")]
  | result i => .wait latency :: shown o i (i.error?.toList.map Session.notificationOf)

theorem question?_eq_some_iff {line input : String} :
    question? line = some input ↔ line.toList = '?' :: input.toList := by
  unfold question?
  split
  · rename_i cs hline
    rw [hline, Option.some.injEq, List.cons.injEq, ← String.toList_inj, String.toList_ofList]
    exact ⟨fun h => ⟨rfl, h⟩, fun h => h.2⟩
  · rename_i hline
    exact iff_of_false nofun (hline _)

theorem commands_concat (before : List String) (line : String) :
    commands (before ++ [line]) =
      commands before ++ if isCommand line then [line] else [] := by
  rw [commands, commands, List.filter_append, List.filter_singleton, Bool.cond_eq_ite]

/-- A suggestion is one of the lines before or a name, letter for letter. -/
theorem mem_of_mem_suggestionsAfter {before : List String} {input found : String}
    (h : found ∈ suggestionsAfter before input) :
    found ∈ before ∨ found ∈ Registry.builtin.names := by
  unfold suggestionsAfter at h
  split at h
  · cases h
  · refine (Provider.mem_of_mem_localAnswer h).imp_left fun hrecent => ?_
    exact (List.mem_filter.1 (List.mem_of_mem_drop hrecent)).1

variable {o : Options} {fs : FileSystem} {start line : String} {latency : Latency}
variable {before : List String} {s t : State}

/-- The state that the lines `before` leave. -/
structure Follows (fs : FileSystem) (start : String) (latency : Latency) (before : List String)
    (s : State) : Prop where
  tree : s.session.fs = fs
  cwd : s.session.cwd = directoryAfter fs start before
  history : s.session.history = (commands before).reverse
  window : s.session.window = historyLength
  latency : s.session.latency = latency
  notifications : s.session.notifications = []
  rests : s.fetcher.Rests
  provider : s.fetcher.provider = .builtin

/-- Nothing depends on lines that are no commands. -/
theorem Follows.skip (h : Follows fs start latency before s) (hline : isCommand line = false) :
    Follows fs start latency (before ++ [line]) s := by
  have hcommands : commands (before ++ [line]) = commands before := by
    rw [commands_concat, hline]
    exact List.append_nil _
  exact
    { h with
      cwd := by rw [directoryAfter, hcommands]; exact h.cwd
      history := by rw [hcommands]; exact h.history }

theorem outcome_builtin (request : Suggest.Request) : Provider.builtin.outcome request =
    if (Text.trim request.input).length < 2 then []
    else Provider.localAnswer Registry.builtin.names request :=
  rfl

theorem Follows.recentHistory (h : Follows fs start latency before s) :
    s.session.recentHistory = (commands before).rtake historyLength := by
  rw [Session.recentHistory, h.history, h.window, List.rtake_eq_reverse_take_reverse]

theorem Follows.suggest (h : Follows fs start latency before s) (input : String) :
    (s.suggest input).1 = suggestionsAfter before input := by
  unfold State.suggest
  dsimp only
  rw [h.rests.latest_settle, h.provider, outcome_builtin, h.recentHistory]
  rfl

theorem submit_blank (hblank : Session.isBlankLine line = true) (o : Options) (s : State) :
    s.submit o line = (false, [], { s with session := (s.session.submit line).2 }) := by
  unfold State.submit
  rw [Session.submit_of_blank hblank]

theorem submit_interpreted (hblank : Session.isBlankLine line = false) (o : Options) (s : State) :
    let i := interpret line s.session.cwd s.session.fs
    let session := s.session.adopt line i
    s.submit o line = (i.error?.isSome, .wait session.latency :: shown o i session.notifications,
      { s with session := { session with notifications := [] } }) := by
  unfold State.submit
  rw [Session.submit_of_not_blank hblank]
  rfl

/-- A failure is the only one to be notified of right after its line. -/
theorem notifications_adopt {session : Session} (hnone : session.notifications = [])
    (line : String) :
    let i := interpret line session.cwd session.fs
    (session.adopt line i).notifications = i.error?.toList.map Session.notificationOf := by
  intro i
  unfold Session.adopt
  dsimp only
  rw [hnone]
  split
  · rename_i hclear
    rw [interpret_error?_of_clear hclear]
    rfl
  · rfl

theorem submit_effects (hnone : s.session.notifications = []) (o : Options) (line : String) :
    (s.submit o line).1 = (interpret line s.session.cwd s.session.fs).error?.isSome ∧
      (s.submit o line).2.1 =
        (submission s.session.fs s.session.cwd line).effects o s.session.latency := by
  unfold submission
  cases hblank : Session.isBlankLine line with
  | true =>
    have hidle : interpret line s.session.cwd s.session.fs = .idle s.session.cwd := by
      simp only [interpret, Registry.interpret, Session.isBlankLine_iff.1 hblank]
    rw [submit_blank hblank, hidle]
    exact ⟨rfl, rfl⟩
  | false =>
    rw [submit_interpreted hblank, notifications_adopt hnone]
    exact ⟨rfl, rfl⟩

theorem Follows.submit (h : Follows fs start latency before s) (hline : question? line = none)
    (o : Options) : Follows fs start latency (before ++ [line]) (s.submit o line).2.2 := by
  cases hblank : Session.isBlankLine line with
  | true =>
    have hskip : Follows fs start latency (before ++ [line]) s :=
      h.skip (by simp [isCommand, hblank])
    rw [submit_blank hblank, Session.submit_of_blank hblank]
    exact { hskip with }
  | false =>
    have hcommands : commands (before ++ [line]) = commands before ++ [line] := by
      rw [commands_concat, if_pos (by simp [isCommand, hline, hblank])]
    rw [submit_interpreted hblank]
    exact
      { tree := (interpret_fs line s.session.cwd s.session.fs).trans h.tree
        cwd := by
          rw [directoryAfter, hcommands, Session.script_append, lastDirectory_append,
            ← directoryAfter, ← h.cwd, ← h.tree]
          rfl
        history := by
          rw [hcommands, List.reverse_append]
          exact congrArg (line :: ·) h.history
        window := h.window
        latency := h.latency
        notifications := rfl
        rests := h.rests
        provider := h.provider }

theorem Follows.ask (h : Follows fs start latency before s) {input : String}
    (hline : question? line = some input) :
    Follows fs start latency (before ++ [line]) (s.suggest input).2 := by
  have hskip : Follows fs start latency (before ++ [line]) s :=
    h.skip (by simp [isCommand, hline])
  let request : Suggest.Request := ⟨input, s.session.recentHistory⟩
  have hprovider : (s.fetcher.schedule request).settle.provider = s.fetcher.provider :=
    (Fetcher.provider_perform _ .settle).trans (s.fetcher.provider_schedule request)
  exact
    { hskip with
      rests := (h.rests.schedule request).perform .settle
      provider := hprovider.trans h.provider }

theorem respond_question {input : String} (hline : question? line = some input) (o : Options)
    (s : State) : s.respond o line =
      ([.print (Text.join "  " (s.suggest input).1 ++ "\n")], (s.suggest input).2) := by
  rw [question?_eq_some_iff] at hline
  simp only [State.respond, hline, String.ofList_toList]

theorem respond_submission (hline : question? line = none) (o : Options) (s : State) :
    s.respond o line = (s.submit o line).2 := by
  unfold State.respond
  split
  · rename_i cs hquestion
    have hinput : question? line = some (String.ofList cs) :=
      question?_eq_some_iff.2 (by rw [hquestion, String.toList_ofList])
    cases hline.symm.trans hinput
  · rfl

theorem Follows.respond (h : Follows fs start latency before s) (o : Options) (line : String) :
    (s.respond o line).1 = (answer fs start before line).effects o latency ∧
      Follows fs start latency (before ++ [line]) (s.respond o line).2 := by
  unfold answer
  cases hline : question? line with
  | some input =>
    rw [respond_question hline, h.suggest]
    exact ⟨rfl, h.ask hline⟩
  | none =>
    have heffects := (submit_effects h.notifications o line).2
    rw [h.tree, h.cwd, h.latency] at heffects
    rw [respond_submission hline]
    exact ⟨heffects, h.submit hline o⟩

/-! ## Runs -/

theorem heard_cons (line : String) (lines : List (Option String)) :
    heard (some line :: lines) = if isExit line then [] else line :: heard lines := by
  unfold heard
  cases h : isExit line <;> simp [h]

theorem Follows.respondAll (h : Follows fs start latency before s) (o : Options)
    (lines : List (Option String)) : s.respondAll o lines =
      (conversation fs start before (heard lines)).flatMap (Answer.effects o latency) := by
  induction lines generalizing before s with
  | nil => rfl
  | cons line? lines ih =>
    cases line? with
    | none => rfl
    | some line =>
      rw [heard_cons, State.respondAll]
      split
      · rfl
      · obtain ⟨heffects, hnext⟩ := h.respond o line
        rw [conversation, List.flatMap_cons, ← heffects, ← ih hnext]

/-- The session that the options ask for in the tree `fs`. -/
def sessionOptions (host : Host) (o : Options) (fs : FileSystem) : SessionOptions where
  cwd := o.cwd?.getD Builtin.home
  fs := fs
  settings := (loadSettings host o).1
  latency := latencyOf o

theorem start_eq_ok_iff {host : Host} : (CommandLine.start host o).2 = .ok s ↔
    ∃ fs session, loadTree host o = .ok fs ∧
      Session.create (sessionOptions host o fs) = .ok session ∧
      s = ⟨session, { provider := .builtin, debounce := 0 }⟩ := by
  unfold CommandLine.start sessionOptions
  cases loadTree host o with
  | error message => exact iff_of_false nofun nofun
  | ok fs =>
    dsimp only
    split
    · rename_i e hcreate
      refine iff_of_false nofun ?_
      rintro ⟨_, session, hfs, hsession, -⟩
      obtain rfl := Except.ok.inj hfs
      rw [hcreate] at hsession
      cases hsession
    · rename_i session hcreate
      constructor
      · intro h
        exact ⟨fs, session, rfl, hcreate, (Except.ok.inj h).symm⟩
      · rintro ⟨_, session', hfs, hsession, rfl⟩
        obtain rfl := Except.ok.inj hfs
        rw [hcreate] at hsession
        rw [Except.ok.inj hsession]

theorem start_cases {host : Host} (h : (CommandLine.start host o).2 = .ok s) :
    loadTree host o = .ok s.session.fs ∧
      s.session.cwd = Path.normalize "/" (o.cwd?.getD Builtin.home) ∧
      Follows s.session.fs s.session.cwd (latencyOf o) [] s := by
  obtain ⟨fs, session, htree, hsession, rfl⟩ := start_eq_ok_iff.1 h
  rw [Session.eq_fresh_of_create hsession]
  exact ⟨htree, rfl, ⟨rfl, rfl, rfl, rfl, rfl, rfl, Fetcher.rests_fresh _ _, rfl⟩⟩

/-- Without a tree nothing is logged. -/
theorem start_log (host : Host) (o : Options) :
    (CommandLine.start host o).1 = [] ∨
      (CommandLine.start host o).1 = logged host (loadSettings host o).2 := by
  unfold CommandLine.start
  cases loadTree host o with
  | error message => exact Or.inl rfl
  | ok fs => exact Or.inr rfl

end TreeShell.CommandLine
