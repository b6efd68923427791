import TreeShell.Proofs.CommandLine.Conversation

/-! # What a run prints in text

Without the option for records a run prints its answers one after the other: suggestions on a line
of their own, the output of a command followed by a line feed, and the message of a failure without
output on the other stream. There a warning comes first if the settings that the run is asked to use
cannot be read. A single command given as an option prints the same as the input that has it as its
only line. -/

namespace TreeShell.CommandLine

def Effect.printed? : Effect → Option String
  | .print text => some text
  | _ => none

def Effect.complaint? : Effect → Option String
  | .complain text => some text
  | _ => none

def printed (effects : List Effect) : String := Text.join "" (effects.filterMap Effect.printed?)

def complaints (effects : List Effect) : String :=
  Text.join "" (effects.filterMap Effect.complaint?)

@[simp] theorem printed_nil : printed [] = "" := rfl

@[simp] theorem printed_print (text : String) (effects : List Effect) :
    printed (.print text :: effects) = text ++ printed effects :=
  Text.join_empty_cons text _

@[simp] theorem printed_complain (text : String) (effects : List Effect) :
    printed (.complain text :: effects) = printed effects :=
  rfl

@[simp] theorem printed_wait (latency : Latency) (effects : List Effect) :
    printed (.wait latency :: effects) = printed effects :=
  rfl

@[simp] theorem complaints_nil : complaints [] = "" := rfl

@[simp] theorem complaints_print (text : String) (effects : List Effect) :
    complaints (.print text :: effects) = complaints effects :=
  rfl

@[simp] theorem complaints_complain (text : String) (effects : List Effect) :
    complaints (.complain text :: effects) = text ++ complaints effects :=
  Text.join_empty_cons text _

@[simp] theorem complaints_wait (latency : Latency) (effects : List Effect) :
    complaints (.wait latency :: effects) = complaints effects :=
  rfl

theorem stdout_eq (r : Report) : r.stdout = printed r.effects := rfl

theorem stderr_eq (r : Report) : r.stderr = complaints r.effects := rfl

theorem printed_append (effects others : List Effect) :
    printed (effects ++ others) = printed effects ++ printed others := by
  rw [printed, List.filterMap_append, Text.join_empty_append, ← printed, ← printed]

theorem complaints_append (effects others : List Effect) :
    complaints (effects ++ others) = complaints effects ++ complaints others := by
  rw [complaints, List.filterMap_append, Text.join_empty_append, ← complaints, ← complaints]

theorem printed_flatMap {α : Type} (f : α → List Effect) (as : List α) :
    printed (as.flatMap f) = Text.join "" (as.map fun a => printed (f a)) := by
  rw [printed, List.filterMap_flatMap, Text.join_empty_flatMap]
  rfl

theorem complaints_flatMap {α : Type} (f : α → List Effect) (as : List α) :
    complaints (as.flatMap f) = Text.join "" (as.map fun a => complaints (f a)) := by
  rw [complaints, List.filterMap_flatMap, Text.join_empty_flatMap]
  rfl

/-! ## Answers in text -/

namespace Answer

/-- What an answer shows. -/
def out (o : Options) : Answer → String
  | nothing => ""
  | suggestions found => Text.join "  " found ++ "\n"
  | result i =>
    if i.clear then clearScreen
    else if i.output = "" then "" else rendered o i.output ++ "\n"

/-- What an answer complains of: a failure that shows nothing. -/
def err : Answer → String
  | result i =>
    match i.error? with
    | some e => if i.output = "" then "Command Error: " ++ e.message ++ "\n" else ""
    | none => ""
  | _ => ""

theorem printed_effects {o : Options} (hjson : o.json = false) (latency : Latency) (a : Answer) :
    printed (a.effects o latency) = a.out o := by
  cases a with
  | nothing => rfl
  | suggestions found => simp [effects, out]
  | result i =>
    simp only [effects, shown, hjson, Bool.false_eq_true, if_false, printed_wait, out]
    by_cases houtput : i.output = ""
    · cases i.clear <;> cases i.error? <;> simp [houtput]
    · cases i.clear <;> simp [houtput]

theorem complaints_effects {o : Options} (hjson : o.json = false) (latency : Latency)
    (a : Answer) : complaints (a.effects o latency) = a.err := by
  cases a with
  | nothing => rfl
  | suggestions found => rfl
  | result i =>
    simp only [effects, shown, hjson, Bool.false_eq_true, if_false, complaints_wait, err]
    by_cases houtput : i.output = ""
    · cases i.clear <;> cases i.error? <;> simp [houtput, Session.notificationOf]
    · cases i.clear <;> cases i.error? <;> simp [houtput]

end Answer

variable {host : Host} {args : List String} {o : Options} {s : State} {line : String}

/-! ## What a start logs -/

theorem printed_start (host : Host) (o : Options) : printed (start host o).1 = "" := by
  rcases start_log host o with h | h
  · rw [h, printed_nil]
  · rw [h]
    cases (loadSettings host o).2 <;> rfl

theorem run_of_read (h : ({} : Options).read args = .ok (.run o)) (host : Host)
    (input : Text.Bytes) : run host args input = o.run host input := by
  simp only [run, h]

/-- What a run on its input does. -/
theorem run_input (hstart : (start host o).2 = .ok s) (hsuggest : o.suggest? = none)
    (hcommand : o.command? = none) (input : Text.Bytes) : o.run host input =
      ⟨(start host o).1 ++
        (conversation s.session.fs s.session.cwd [] (heard (inputLines input))).flatMap
          (Answer.effects o (latencyOf o)), 0⟩ := by
  rw [← (start_cases hstart).2.2.respondAll]
  simp only [Options.run, hstart, hsuggest, hcommand]

/-- What a run of a single command does. -/
theorem run_command (hstart : (start host o).2 = .ok s) (hsuggest : o.suggest? = none)
    (hcommand : o.command? = some line) (input : Text.Bytes) : o.run host input =
      ⟨(start host o).1 ++
        (submission s.session.fs s.session.cwd line).effects o s.session.latency,
        if (interpret line s.session.cwd s.session.fs).error?.isSome then 1 else 0⟩ := by
  obtain ⟨hfailed, heffects⟩ := submit_effects (start_cases hstart).2.2.notifications o line
  simp only [Options.run, hstart, hsuggest, hcommand, hfailed, heffects]

theorem run_failed {message : String} (hstart : (start host o).2 = .error message)
    (input : Text.Bytes) :
    o.run host input = ⟨(start host o).1 ++ [.complain message], 1⟩ := by
  simp only [Options.run, hstart]

/-- What a run for suggestions does: no lines stand before. -/
theorem run_suggest (hstart : (start host o).2 = .ok s) {text : String}
    (hsuggest : o.suggest? = some text) (input : Text.Bytes) : o.run host input =
      ⟨(start host o).1 ++
        (suggestionsAfter [] text).map fun found => .print (found ++ "\n"), 0⟩ := by
  rw [← (start_cases hstart).2.2.suggest]
  simp only [Options.run, hstart, hsuggest]

/-- A report in text of the given answers after what was logged at the start. -/
structure Report.Shows (r : Report) (o : Options) (log : String) (answers : List Answer) :
    Prop where
  out : r.stdout = Text.join "" (answers.map (Answer.out o))
  err : r.stderr = log ++ Text.join "" (answers.map Answer.err)

theorem shows_flatMap (hjson : o.json = false) (host : Host) (latency : Latency)
    (answers : List Answer) (code : Nat) :
    Report.Shows ⟨(start host o).1 ++ answers.flatMap (Answer.effects o latency), code⟩ o
      (complaints (start host o).1) answers where
  out := by
    rw [stdout_eq, printed_append, printed_start, String.empty_append, printed_flatMap]
    simp only [Answer.printed_effects hjson]
  err := by
    rw [stderr_eq, complaints_append, complaints_flatMap]
    simp only [Answer.complaints_effects hjson]

theorem shows_effects (hjson : o.json = false) (host : Host) (latency : Latency) (a : Answer)
    (code : Nat) :
    Report.Shows ⟨(start host o).1 ++ a.effects o latency, code⟩ o
      (complaints (start host o).1) [a] := by
  have h := shows_flatMap hjson host latency [a]
  rw [List.flatMap_singleton] at h
  exact h code

/-! ## A single command and a single line -/

/-- A host without files whose log shows warnings. -/
def bare : Host where
  read _ := .error .missing
  log warning := "WARN " ++ warning.message ++ "\n"

/-- The state that a run in the seed tree starts with. -/
def seedStart (host : Host) (o : Options) : State :=
  ⟨Session.fresh (sessionOptions host o .seed), { provider := .builtin, debounce := 0 }⟩

theorem start_seed (host : Host) (htree : o.tree? = none) (hcwd : o.cwd? = none) :
    (start host o).2 = .ok (seedStart host o) := by
  have hhome : Session.create {} = .ok (Session.fresh {}) := rfl
  have hcreate : Session.create (sessionOptions host o .seed) =
      .ok (Session.fresh (sessionOptions host o .seed)) :=
    Session.create_of_create hhome (by rw [sessionOptions, hcwd]; rfl) rfl
  have hseed : loadTree host o = .ok .seed := by rw [loadTree, htree]
  exact start_eq_ok_iff.2 ⟨.seed, _, hseed, hcreate, rfl⟩

end TreeShell.CommandLine
