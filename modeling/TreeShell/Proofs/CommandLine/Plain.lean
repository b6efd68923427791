import TreeShell.Proofs.CommandLine.Arguments
import TreeShell.Proofs.CommandLine.Printing
import TreeShell.Proofs.Markup.Stripping

/-! # What a run prints in plain text

The option for plain text takes the markup out of what commands print, and out of nothing else.
A question is answered by past commands as they were typed, so the whole output is stripped just
when no line of suggestions has markup in it. -/

namespace TreeShell.CommandLine

open Markup (IsClosed strip)

/-- The line of suggestions that an answer shows. -/
def Answer.suggested? : Answer → Option String
  | suggestions found => some (Text.join "  " found)
  | _ => none

/-- The lines of suggestions that a run shows in answer to the questions in its input. -/
def suggestionLines (host : Host) (args : List String) (input : Text.Bytes) : List String :=
  match ({} : Options).read args with
  | .ok (.run o) =>
    match (start host o).2, o.suggest?, o.command? with
    | .ok s, none, none =>
      (conversation s.session.fs s.session.cwd [] (heard (inputLines input))).filterMap
        Answer.suggested?
    | _, _, _ => []
  | _ => []

/-- The first report is the second one without markup, if none stands in the given lines. -/
structure Report.Strips (plain colored : Report) (suggested : List String) : Prop where
  code : plain.code = colored.code
  err : plain.stderr = colored.stderr
  out : plain.stdout = strip colored.stdout ↔ ∀ line ∈ suggested, strip line = line

theorem Report.strips_self {r : Report} (h : '\x1b' ∉ r.stdout.toList) : r.Strips r [] where
  code := rfl
  err := rfl
  out := iff_of_true (Markup.strip_eq_self h).symm (fun line hline => by cases hline)

/-! ## One answer -/

namespace Answer

variable {o : Options}

theorem isClosed_out (o : Options) (a : Answer) : IsClosed (a.out o) := by
  have hcorner : clearScreen = "\x1b[2J\x1b[" ++ String.singleton 'H' := rfl
  cases a with
  | nothing => exact Markup.isClosed_empty
  | suggestions found => exact Markup.isClosed_line _
  | result i =>
    unfold out
    dsimp only
    split
    · rw [hcorner]
      exact Markup.isClosed_append rfl _
    · split
      · exact Markup.isClosed_empty
      · exact Markup.isClosed_line _

/-- What commands print is stripped. -/
theorem strip_out_result (ho : o.plain = false) (i : Interpretation) :
    strip ((result i).out o) = (result i).out o.plainly := by
  unfold out
  dsimp only
  split
  · rfl
  · split
    · rfl
    · simp only [rendered, ho, Bool.false_eq_true, if_false]
      exact Markup.strip_line i.output

theorem strip_out_sublist (ho : o.plain = false) (a : Answer) :
    (strip (a.out o)).toList.Sublist (a.out o.plainly).toList := by
  cases a with
  | nothing => exact List.Sublist.refl _
  | suggestions found => exact Markup.strip_sublist _
  | result i =>
    rw [strip_out_result ho]

/-- Suggestions are shown as they are. -/
theorem strip_out_eq_iff (ho : o.plain = false) (a : Answer) :
    strip (a.out o) = a.out o.plainly ↔
      ∀ line, a.suggested? = some line → strip line = line := by
  cases a with
  | nothing => exact iff_of_true rfl (fun line hline => by cases hline)
  | result i => exact iff_of_true (strip_out_result ho i) (fun line hline => by cases hline)
  | suggestions found =>
    unfold out
    rw [Markup.strip_line, ← String.toList_inj, String.toList_append, String.toList_append,
      List.append_cancel_right_eq, String.toList_inj]
    constructor
    · intro h line hsome
      obtain rfl := Option.some.inj hsome
      exact h
    · intro h
      exact h _ rfl

end Answer

/-! ## Runs -/

variable {host : Host} {o : Options} {s : State}

theorem strips_of_shows {plain colored : Report} {log : String} {answers : List Answer}
    (ho : o.plain = false) (hplain : plain.Shows o.plainly log answers)
    (hcolored : colored.Shows o log answers)
    (hcode : plain.code = colored.code) :
    plain.Strips colored (answers.filterMap Answer.suggested?) where
  code := hcode
  err := hplain.err.trans hcolored.err.symm
  out := by
    have hclosed : ∀ part ∈ answers.map (Answer.out o), IsClosed part := by
      intro part hpart
      obtain ⟨a, -, rfl⟩ := List.mem_map.1 hpart
      exact a.isClosed_out o
    -- Part by part, the stripped output has at most lost characters of the plain one.
    have hparts : Text.join "" (answers.map fun a => strip (a.out o)) =
        Text.join "" (answers.map (Answer.out o.plainly)) ↔
          ∀ a ∈ answers, strip (a.out o) = a.out o.plainly :=
      Text.join_empty_eq_iff fun a _ => Answer.strip_out_sublist ho a
    rw [hplain.out, hcolored.out, Markup.strip_join hclosed, List.map_map, eq_comm]
    refine hparts.trans ?_
    simp only [Answer.strip_out_eq_iff ho, List.mem_filterMap]
    constructor
    · rintro h line ⟨a, ha, hline⟩
      exact h a ha line hline
    · intro h a ha line hline
      exact h line ⟨a, ha, hline⟩

theorem suggested?_submission (fs : FileSystem) (cwd line : String) :
    [submission fs cwd line].filterMap Answer.suggested? = [] := by
  unfold submission
  split <;> rfl

/-- Suggestions that are asked for by an option are names only. -/
theorem escape_not_mem_suggest (hstart : (start host o).2 = .ok s) {text : String}
    (hsuggest : o.suggest? = some text) (input : Text.Bytes) :
    '\x1b' ∉ (o.run host input).stdout.toList := by
  have hnames : ∀ name ∈ Registry.builtin.names, '\x1b' ∉ name.toList := by decide
  have hfeed : '\x1b' ∉ "\n".toList := by decide
  rw [run_suggest hstart hsuggest, stdout_eq, printed_append, printed_start, String.empty_append,
    printed]
  intro hmem
  rcases Text.mem_of_mem_join hmem with hsep | ⟨part, hpart, hmem⟩
  · cases hsep
  · obtain ⟨effect, heffect, hpart⟩ := List.mem_filterMap.1 hpart
    obtain ⟨found, hfound, rfl⟩ := List.mem_map.1 heffect
    obtain rfl := Option.some.inj hpart
    rw [String.toList_append, List.mem_append] at hmem
    rcases hmem with hmem | hmem
    · rcases mem_of_mem_suggestionsAfter hfound with hline | hname
      · cases hline
      · exact hnames found hname hmem
    · exact hfeed hmem

theorem escape_not_mem_print {text : String} (h : '\x1b' ∉ text.toList) :
    '\x1b' ∉ (⟨[.print text], 0⟩ : Report).stdout.toList := by
  rwa [stdout_eq, printed_print, printed_nil, String.append_empty]

theorem escape_not_mem_version : '\x1b' ∉ version.toList := by
  unfold version
  rw [String.toList_ofList]
  decide

theorem escape_not_mem_help : '\x1b' ∉ help.toList := by
  unfold help
  simp only [String.toList_append]
  repeat rw [String.toList_ofList]
  decide +kernel

theorem start_plainly (host : Host) (o : Options) : start host o.plainly = start host o := by
  simp only [start, loadTree, loadSettings, latencyOf, Options.plainly]

theorem strips_run (hjson : o.json = false) (ho : o.plain = false) (host : Host)
    {args : List String} (hread : ({} : Options).read args = .ok (.run o)) (input : Text.Bytes) :
    (o.plainly.run host input).Strips (o.run host input) (suggestionLines host args input) := by
  have hplain := start_plainly host o
  have hstarts : (start host o.plainly).2 = (start host o).2 := congrArg Prod.snd hplain
  have hplainly : o.plainly.json = false := hjson
  unfold suggestionLines
  rw [hread]
  dsimp only
  cases hstart : (start host o).2 with
  | error message =>
    rw [run_failed (hstarts.trans hstart), run_failed hstart, hplain]
    apply Report.strips_self
    rw [stdout_eq, printed_append, printed_start]
    exact List.not_mem_nil
  | ok s =>
    rw [hstart] at hstarts
    cases hsuggest : o.suggest? with
    | some text =>
      have hsilent := escape_not_mem_suggest hstart hsuggest input
      rw [run_suggest hstart hsuggest] at hsilent ⊢
      rw [run_suggest (o := o.plainly) hstarts hsuggest, hplain]
      exact Report.strips_self hsilent
    | none =>
      cases hcommand : o.command? with
      | some line =>
        have hshows := shows_effects hplainly host s.session.latency
          (submission s.session.fs s.session.cwd line)
        rw [run_command hstarts hsuggest hcommand, run_command hstart hsuggest hcommand,
          ← suggested?_submission s.session.fs s.session.cwd line]
        rw [hplain] at hshows ⊢
        exact strips_of_shows ho (hshows _) (shows_effects hjson _ _ _ _) rfl
      | none =>
        have hshows := shows_flatMap hplainly host (latencyOf o.plainly)
          (conversation s.session.fs s.session.cwd [] (heard (inputLines input)))
        rw [run_input hstarts hsuggest hcommand, run_input hstart hsuggest hcommand]
        rw [hplain] at hshows ⊢
        exact strips_of_shows ho (hshows _) (shows_flatMap hjson _ _ _ _) rfl

/-- A run with the option for plain text ends like the run without it and complains of the same.
Its output is that of the other run stripped, exactly if stripping changes none of the lines of
suggestions that the runs show in answer to questions. -/
theorem plain_strips {before after : List String} {r : Request}
    (hargs : "--json" ∉ before ++ after)
    (hread : ({} : Options).read (before ++ "--plain" :: after) = .ok r) (host : Host)
    (input : Text.Bytes) :
    (run host (before ++ "--plain" :: after) input).Strips (run host (before ++ after) input)
      (suggestionLines host (before ++ after) input) := by
  obtain ⟨colored, hcolored, hplain, rfl⟩ := (read_eq_ok_iff.1 hread).without rfl
  have htext := hcolored.isText rfl hargs
  rw [← read_eq_ok_iff] at hcolored
  cases colored with
  | help =>
    simp only [run, hread, hcolored, Request.plainly, suggestionLines]
    exact Report.strips_self (escape_not_mem_print escape_not_mem_help)
  | version =>
    simp only [run, hread, hcolored, Request.plainly, suggestionLines]
    exact Report.strips_self (escape_not_mem_print escape_not_mem_version)
  | run o =>
    have hjson : o.json = false := by simpa [Request.isText] using htext
    have ho : o.plain = false := by simpa [Request.isColored] using hplain
    rw [run_of_read hread, run_of_read hcolored]
    exact strips_run hjson ho host hcolored input

theorem suggestionLines_of_start {args : List String}
    (hread : ({} : Options).read args = .ok (.run o)) (hstart : (start host o).2 = .ok s)
    (hsuggest : o.suggest? = none) (hcommand : o.command? = none) (input : Text.Bytes) :
    suggestionLines host args input =
      (conversation s.session.fs s.session.cwd [] (heard (inputLines input))).filterMap
        Answer.suggested? := by
  simp only [suggestionLines, hread, hstart, hsuggest, hcommand]

theorem plain_strips_unknown :
    let input := Text.encode (ofLines ["nope", "?no"])
    let colored := run bare [] input
    let plain := run bare ["--plain"] input
    suggestionLines bare [] input = ["nope"] ∧ plain.code = colored.code ∧
      plain.stderr = colored.stderr ∧ plain.stdout = strip colored.stdout := by
  intro input colored plain
  have hlines : inputLines input = ["nope", "?no"].map fun line => some (chomp line) :=
    inputLines_ofLines (by decide)
  have hsuggested : suggestionLines bare [] input = ["nope"] := by
    rw [suggestionLines_of_start rfl (start_seed bare rfl rfl) rfl rfl, hlines]
    rfl
  have hstrips : plain.Strips colored (suggestionLines bare [] input) :=
    @plain_strips [] [] (.run { plain := true }) (by decide) rfl bare input
  refine ⟨hsuggested, hstrips.code, hstrips.err, hstrips.out.2 ?_⟩
  intro line hline
  rw [hsuggested, List.mem_singleton] at hline
  rw [hline]
  rfl

/-- A command with markup in it is suggested with its markup, plain text or not. -/
theorem not_every_run_strips :
    ¬ ∀ (host : Host) (before after : List String) (input : Text.Bytes) (r s : Request),
      "--json" ∉ before ++ after → ({} : Options).read (before ++ after) = .ok r →
        ({} : Options).read (before ++ "--plain" :: after) = .ok s →
          let colored := run host (before ++ after) input
          let plain := run host (before ++ "--plain" :: after) input
          plain.code = colored.code ∧ plain.stderr = colored.stderr ∧
            plain.stdout = strip colored.stdout := by
  intro h
  let lines := ["echo \x1b[31mred", "?ec"]
  have hlines : inputLines (Text.encode (ofLines lines)) =
      lines.map fun line => some (chomp line) :=
    inputLines_ofLines (by decide)
  obtain ⟨-, -, hout⟩ := h bare [] [] (Text.encode (ofLines lines)) _ _ (by decide) rfl rfl
  have hcolored : (run bare [] (Text.encode (ofLines lines))).stdout =
      "\x1b[31mred\necho \x1b[31mred  echo\n" := by
    rw [run_of_read (o := {}) rfl, run_input (start_seed bare rfl rfl) rfl rfl, hlines]
    rfl
  have hplain : (run bare ["--plain"] (Text.encode (ofLines lines))).stdout =
      "red\necho \x1b[31mred  echo\n" := by
    rw [run_of_read (o := { plain := true }) rfl,
      run_input (start_seed bare rfl rfl) rfl rfl, hlines]
    rfl
  have hstrip : strip "\x1b[31mred\necho \x1b[31mred  echo\n" = "red\necho red  echo\n" := rfl
  rw [List.append_nil, List.nil_append, hcolored, hplain, hstrip] at hout
  exact absurd hout (by decide)

end TreeShell.CommandLine
