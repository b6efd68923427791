import Mathlib.Data.List.DropRight
import TreeShell.Proofs.Session.Fold

/-! # What a session keeps a record of

Every line that is submitted makes an exchange: the prompt it was typed at and what it was
interpreted as. A run of a session is told by its exchanges. The transcript shows those since the
screen was cleared, the history has their lines, and each failure among them is notified once,
either to someone who took the notifications or to the next one who does. -/

namespace TreeShell

/-- A line at the prompt that it was typed at; without an interpretation it was blank. -/
structure Exchange where
  prompt : String
  line : String
  result? : Option Interpretation

namespace Exchange

/-- What an exchange adds to the transcript. -/
def shown (e : Exchange) : List String :=
  match e.result? with
  | none => [e.prompt ++ " "]
  | some i => (e.prompt ++ " " ++ e.line) :: Text.split '\n' i.output

/-- A line whose first word is `clear` clears the screen. -/
def clears (e : Exchange) : Bool := (Text.words e.line).head? == some "clear"

/-- Why the line failed, if it did and left the screen. -/
def failure? (e : Exchange) : Option ShellError :=
  if e.clears then none else e.result?.bind Interpretation.error?

/-- The transcript after one more exchange. -/
def extend (transcript : List String) (e : Exchange) : List String :=
  if e.clears then [] else transcript ++ e.shown

/-- Only what came after the last exchange that cleared the screen is left. -/
theorem foldl_extend (es : List Exchange) :
    es.foldl extend [] = (es.rtakeWhile (!·.clears)).flatMap shown := by
  induction es using List.reverseRecOn with
  | nil => rfl
  | append_singleton es e ih =>
    rw [List.foldl_append, List.foldl_cons, List.foldl_nil, ih, extend, List.rtakeWhile_concat]
    cases e.clears with
    | true => rfl
    | false => simp

end Exchange

/-- The theme in force after an action. -/
def Action.theme (theme : Theme) : Action → Theme
  | .setSettings settings => settings.theme
  | _ => theme

/-- The exchange that an action makes in the directory `cwd`. -/
def Action.exchange? (fs : FileSystem) (cwd : String) (theme : Theme) : Action → Option Exchange
  | .submit line => some ⟨Session.promptFor theme cwd, line,
      if Session.isBlankLine line then none else some (interpret line cwd fs)⟩
  | _ => none

/-- The exchanges that actions make, each in the directory that the ones before it lead to and with
the theme that was set last. -/
def exchanges (fs : FileSystem) : (cwd : String) → (theme : Theme) → List Action → List Exchange
  | _, _, [] => []
  | cwd, theme, a :: actions =>
    let e? := a.exchange? fs cwd theme
    let next := lastDirectory cwd (e?.bind Exchange.result?).toList
    e?.toList ++ exchanges fs next (a.theme theme) actions

/-- What a submit was answered, which is nothing for a blank line. -/
def Reply.answer? : Reply → Option (Option Interpretation)
  | .interpreted result => some result
  | _ => none

def Reply.taken : Reply → List Notification
  | .notifications raised => raised
  | _ => []

/-- All notifications handed over in a run. -/
def taken (replies : List Reply) : List Notification := replies.flatMap Reply.taken

theorem taken_cons (reply : Reply) (replies : List Reply) :
    taken (reply :: replies) = reply.taken ++ taken replies :=
  List.flatMap_cons

namespace Session

variable {s t u : Session} {line : String} {actions : List Action} {replies : List Reply}
variable {e? : Option Exchange} {es : List Exchange} {reply : Reply}

/-! ## One action -/

theorem exchange?_of_blank (h : isBlankLine line = true) (fs : FileSystem) (cwd : String)
    (theme : Theme) :
    (Action.submit line).exchange? fs cwd theme = some ⟨promptFor theme cwd, line, none⟩ := by
  simp only [Action.exchange?, h, if_true]

theorem exchange?_of_not_blank (h : isBlankLine line = false) (fs : FileSystem) (cwd : String)
    (theme : Theme) : (Action.submit line).exchange? fs cwd theme =
      some ⟨promptFor theme cwd, line, some (interpret line cwd fs)⟩ := by
  simp only [Action.exchange?, h, Bool.false_eq_true, if_false]

/-- What one action does to the logs, told by the exchange it makes. -/
structure Enters (s : Session) (e? : Option Exchange) (reply : Reply) (t : Session) : Prop where
  answer : reply.answer? = e?.map Exchange.result?
  transcript : t.transcript = e?.toList.foldl Exchange.extend s.transcript
  notified : reply.taken ++ t.notifications =
    s.notifications ++ (e?.toList.filterMap Exchange.failure?).map notificationOf
  cwd : t.cwd = lastDirectory s.cwd (e?.bind Exchange.result?).toList
  window : t.window = s.window

theorem enters_blank (h : isBlankLine line = true) (s : Session) :
    s.Enters ((Action.submit line).exchange? s.fs s.cwd s.settings.theme)
      (.interpreted (s.submit line).1) (s.submit line).2 := by
  have hclears : ((Text.words line).head? == some "clear") = false := by
    rw [isBlankLine, beq_iff_eq, Text.trim_eq_empty_iff_words] at h
    rw [h]
    rfl
  rw [exchange?_of_blank h, submit_of_blank h]
  constructor
  · rfl
  · simp [Exchange.extend, Exchange.clears, hclears, Exchange.shown, prompt]
  · simp [Exchange.failure?, Reply.taken]
  · rfl
  · rfl

theorem enters_interpreted (h : isBlankLine line = false) (s : Session) :
    s.Enters ((Action.submit line).exchange? s.fs s.cwd s.settings.theme)
      (.interpreted (s.submit line).1) (s.submit line).2 := by
  have hclears : ((Text.words line).head? == some "clear") =
      (interpret line s.cwd s.fs).clear := by
    rw [Bool.eq_iff_iff, beq_iff_eq, interpret_clear_iff]
  rw [exchange?_of_not_blank h, submit_of_not_blank h]
  constructor
  · rfl
  · simp [Exchange.extend, Exchange.clears, hclears, Exchange.shown, adopt, prompt]
  · simp only [Option.toList_some, List.filterMap_cons, Exchange.failure?, Exchange.clears,
      hclears, adopt, Reply.taken, List.nil_append, Option.bind_some]
    cases (interpret line s.cwd s.fs).clear with
    | true => simp
    | false => cases (interpret line s.cwd s.fs).error? <;> simp
  · rfl
  · rfl

theorem enters_perform (s : Session) (a : Action) :
    s.Enters (a.exchange? s.fs s.cwd s.settings.theme) (s.perform a).1 (s.perform a).2 := by
  cases a with
  | submit line =>
    rw [perform_submit]
    cases h : isBlankLine line with
    | true => exact enters_blank h s
    | false => exact enters_interpreted h s
  | historyUp =>
    simp only [perform, historyUp]
    split <;> exact ⟨rfl, rfl, (List.append_nil _).symm, rfl, rfl⟩
  | historyDown =>
    simp only [perform, historyDown]
    split <;> exact ⟨rfl, rfl, (List.append_nil _).symm, rfl, rfl⟩
  | recentHistory => exact ⟨rfl, rfl, (List.append_nil _).symm, rfl, rfl⟩
  | takeNotifications => exact ⟨rfl, rfl, rfl, rfl, rfl⟩
  | setSettings settings => exact ⟨rfl, rfl, (List.append_nil _).symm, rfl, rfl⟩

theorem theme_perform (s : Session) (a : Action) :
    (s.perform a).2.settings.theme = a.theme s.settings.theme := by
  cases a with
  | submit line =>
    rw [perform_submit]
    cases h : isBlankLine line with
    | true => simp only [submit_of_blank h, Action.theme]
    | false => simp only [submit_of_not_blank h, Action.theme, adopt]
  | historyUp =>
    simp only [perform, historyUp]
    split <;> rfl
  | historyDown =>
    simp only [perform, historyDown]
    split <;> rfl
  | recentHistory => rfl
  | takeNotifications => rfl
  | setSettings settings => rfl

/-! ## Runs -/

/-- What a run from `s` that makes the exchanges `es` answers, and the logs at its end `t`. -/
structure Logs (s : Session) (es : List Exchange) (replies : List Reply) (t : Session) : Prop where
  answers : replies.filterMap Reply.answer? = es.map Exchange.result?
  transcript : t.transcript = es.foldl Exchange.extend s.transcript
  notified : taken replies ++ t.notifications =
    s.notifications ++ (es.filterMap Exchange.failure?).map notificationOf
  window : t.window = s.window

theorem Logs.cons (ha : s.Enters e? reply t) (h : t.Logs es replies u) :
    s.Logs (e?.toList ++ es) (reply :: replies) u where
  answers := by
    rw [List.map_append, ← h.answers, List.filterMap_cons, ha.answer]
    cases e? <;> rfl
  transcript := by rw [List.foldl_append, ← ha.transcript, h.transcript]
  notified := by
    rw [taken_cons, List.append_assoc, h.notified, ← List.append_assoc, ha.notified,
      List.filterMap_append, List.map_append, List.append_assoc]
  window := h.window.trans ha.window

theorem logs_performAll (s : Session) (actions : List Action) :
    s.Logs (exchanges s.fs s.cwd s.settings.theme actions) (s.performAll actions).1
      (s.performAll actions).2 := by
  induction actions generalizing s with
  | nil => exact ⟨rfl, rfl, (List.append_nil _).symm, rfl⟩
  | cons a actions ih =>
    have ha := s.enters_perform a
    have hrest := ih (s.perform a).2
    rw [(s.adopts_perform a).fs, ha.cwd, theme_perform] at hrest
    rw [performAll_cons]
    exact Logs.cons ha hrest

/-- The logs at the end `t` of a run that makes the exchanges `es` and interprets `lines`. -/
structure IsLogged (es : List Exchange) (lines : List String) (window : Nat)
    (replies : List Reply) (t : Session) : Prop where
  /-- Every submit is answered by the interpretation that its exchange shows. -/
  answers : replies.filterMap Reply.answer? = es.map Exchange.result?
  transcript : t.transcript = (es.rtakeWhile (!·.clears)).flatMap Exchange.shown
  history : t.history = lines.reverse
  recent : (t.perform .recentHistory).1 = .lines (lines.drop (lines.length - min window lines.length))
  /-- Each failure is notified once, and in order. -/
  notified : taken replies ++ t.notifications =
    (es.filterMap Exchange.failure?).map notificationOf

theorem recentHistory_of_history {lines : List String} (h : t.history = lines.reverse) :
    t.recentHistory = lines.drop (lines.length - min t.window lines.length) := by
  have hmin : lines.length - min t.window lines.length = lines.length - t.window := by omega
  rw [recentHistory, h, hmin, List.take_reverse, List.reverse_reverse]

/-- The logs of a session are complete and exact after any actions: the transcript is what the
exchanges since the last `clear` have shown, the history has all lines that were interpreted, and
what was taken of the notifications together with what is left is one for each failure. -/
theorem keeps_exact_logs {options : SessionOptions} {s : Session} (h : create options = .ok s)
    (actions : List Action) :
    let run := s.performAll actions
    let start := Path.normalize "/" options.cwd
    IsLogged (exchanges options.fs start options.settings.theme actions) (submitted actions)
      options.window run.1 run.2 := by
  obtain rfl := eq_fresh_of_create h
  intro run start
  have hlogs := (fresh options).logs_performAll actions
  have hhistory : run.2.history = (submitted actions).reverse := by
    have hfolds := (fresh options).folds_performAll actions
    exact hfolds.history.trans (List.append_nil _)
  exact
    { answers := hlogs.answers
      transcript := hlogs.transcript.trans (Exchange.foldl_extend _)
      history := hhistory
      recent := by
        have hrecent := recentHistory_of_history hhistory
        rw [hlogs.window] at hrecent
        exact congrArg Reply.lines hrecent
      notified := hlogs.notified }

/-- A clear between two failures, a blank line, another theme and one of the failures taken. -/
def mixed : List Action :=
  [.submit "cat x", .takeNotifications, .submit "clear now", .submit "cd b", .submit "\t",
    .setSettings { theme := .powershell }, .submit "ls", .submit "cd x"]

theorem keeps_exact_logs_mixed :
    let run := standard.performAll mixed
    create { cwd := "/a", fs := nested } = .ok standard ∧
      run.2.transcript = ["/a¶ cd b", "", "/a/b¶ ", "PS \\a\\b¶ ls", "", "PS \\a\\b¶ cd x", ""] ∧
      run.2.history = ["cd x", "ls", "cd b", "clear now", "cat x"] ∧
      taken run.1 ++ run.2.notifications =
        [⟨"Command Error", "cat: x: No such file or directory"⟩,
          ⟨"Command Error", "cd: path not found: x"⟩] := by
  intro run
  have h := keeps_exact_logs create_standard mixed
  exact ⟨create_standard, h.transcript.trans rfl, h.history.trans rfl, h.notified.trans rfl⟩

end Session

end TreeShell
