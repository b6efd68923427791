import TreeShell.Proofs.Session.Fold
import TreeShell.Proofs.Shell.Targets
import TreeShell.Proofs.Text.Layout
import TreeShell.Proofs.Text.Runs

/-! # What is read of a line

A line invokes what stands on its runs without blanks, and nothing if it has none; a session takes
just these lines for blank. How many blanks stand between the words, and of which kind, does not
matter, so that what `echo` shows of a text has the words of the text. -/

namespace TreeShell

open Interpretation (shown)

namespace Invocation

variable {line : String} {c : Invocation}

/-- The name and the arguments in the order of the line. -/
def tokens (c : Invocation) : List String := c.name :: c.args

/-- What the words of a layout invoke. -/
def ofLayout (l : Text.Layout) : Invocation := ⟨l.first, l.rest.map Prod.snd⟩

theorem parse?_eq_some_iff : parse? line = some c ↔ Text.words line = c.tokens := by
  obtain ⟨name, args⟩ := c
  rw [parse?]
  cases Text.words line with
  | nil => simp [tokens]
  | cons first rest => simp [tokens]

theorem parse?_eq_none_iff : parse? line = none ↔ Text.AllBlank line.toList := by
  rw [← Session.isBlankLine_iff, Session.isBlankLine, beq_iff_eq]
  exact Text.trim_eq_empty_iff line

theorem parse?_eq_some_iff_hasRuns :
    parse? line = some c ↔ Text.HasRuns line.toList (c.tokens.map String.toList) :=
  parse?_eq_some_iff.trans Text.words_eq_iff_hasRuns

theorem parse?_eq_some_iff_layout :
    parse? line = some c ↔ ∃ l, Text.Layout.line l = line ∧ ofLayout l = c := by
  obtain ⟨name, args⟩ := c
  rw [parse?_eq_some_iff, tokens, Text.words_eq_cons_iff]
  simp only [ofLayout, mk.injEq]

theorem parse?_congr {line' : String} (h : Text.words line = Text.words line') :
    parse? line = parse? line' := by
  rw [parse?, parse?, h]

end Invocation

/-! ## Echoes -/

/-- What `echo` shows of a text. -/
def echoOf (s : String) : String := Text.join " " (Text.words s)

theorem words_echoOf (s : String) : Text.words (echoOf s) = Text.words s :=
  Text.words_join fun _ hw => Text.isWord_of_mem_words hw

theorem echoOf_echoOf (s : String) : echoOf (echoOf s) = echoOf s := by
  rw [echoOf, words_echoOf, echoOf]

theorem interpret_echo (s cwd : String) (fs : FileSystem) :
    interpret ("echo " ++ s) cwd fs = shown cwd (echoOf s) := by
  have hname : Text.IsWord "echo" := ⟨by decide, by simp; decide⟩
  have hspace : "echo " = "echo" ++ " " := by decide
  have hwords : Text.words ("echo " ++ s) = "echo" :: Text.words s := by
    rw [hspace, hname.words_append_space]
  have hget : Registry.builtin.get? "echo" = some Builtin.echo := rfl
  rw [interpret_of_words hwords hget]
  exact Interpretation.ofOutcome_success cwd (echoOf s)

/-- Reading a line is exact: it comes to nothing for a text of blanks, which is what a session takes
for a blank line, and else to what stands on the runs of the line. Said from the other side, words
are read back from the lines that they are laid out on, and from no others. What `echo` shows of a
text reads like the text, and echoing it changes nothing any more. -/
theorem Invocation.reads_every_run :
    (∀ line, (parse? line = none ↔ Text.AllBlank line.toList) ∧
      (parse? line = none ↔ Session.isBlankLine line = true)) ∧
    (∀ line c, parse? line = some c ↔
      Text.HasRuns line.toList (c.tokens.map String.toList)) ∧
    (∀ line c, parse? line = some c ↔ ∃ l, Text.Layout.line l = line ∧ ofLayout l = c) ∧
    ∀ s cwd fs, ∃ output, interpret ("echo " ++ s) cwd fs = shown cwd output ∧
      parse? output = parse? s ∧
        ∀ cwd' fs', interpret ("echo " ++ output) cwd' fs' = shown cwd' output := by
  refine ⟨fun line => ⟨parse?_eq_none_iff, Session.isBlankLine_iff.symm⟩, ?_, ?_, ?_⟩
  · intro line c
    exact parse?_eq_some_iff_hasRuns
  · intro line c
    exact parse?_eq_some_iff_layout
  · intro s cwd fs
    refine ⟨echoOf s, interpret_echo s cwd fs, parse?_congr (words_echoOf s), ?_⟩
    intro cwd' fs'
    rw [interpret_echo, echoOf_echoOf]

example : Invocation.parse? "\techo\u3000a \u2028 b " = some ⟨"echo", ["a", "b"]⟩ := by
  decide

end TreeShell
