import TreeShell.Proofs.CommandLine.Printing
import TreeShell.Proofs.Json.Writing

/-! # What a run prints in records

With the option for records each line of the input that is not blank is answered on a line of its
own: a question by the suggestions, a command by a record of what it comes to. Whoever cuts the
output at its line feeds gets the answers in order, and reads in each record the output, the
directory and the failure as they are. -/

namespace TreeShell.CommandLine

/-- What the record of an interpretation is written from. -/
def recordDoc (i : Interpretation) : Json.Doc :=
  .record [("cwd", .text i.cwd),
    ("error", match i.error? with | some e => .text e.message | none => .null),
    ("output", .text i.output)]

namespace Answer

/-- The line that shows an answer. -/
def line? : Answer → Option String
  | nothing => none
  | suggestions found => some (Text.join "  " found)
  | result i => some (recordDoc i).compact

end Answer

variable {host : Host} {args : List String} {o : Options} {s : State}
variable {fs : FileSystem} {start line text : String} {before lines : List String}

end TreeShell.CommandLine
