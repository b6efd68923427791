import TreeShell.Markup.Segment
import TreeShell.Text.Basic
import TreeShell.Tree.Path

/-! # Commands

A command is a name and a function from what it is given to what comes of it. An outcome says
what is new: without a new directory or tree the old one stays. -/

/-! ## Errors of commands

Why a line failed. No failure ends a session; each is reported with the line that caused it. -/

namespace TreeShell

inductive ShellError where
  | pathNotFound (command path : String)
  | notADirectory (command path : String)
  | isADirectory (command path : String)
  | missingOperand (command : String)
  | unknownCommand (name : String)
  deriving DecidableEq, Repr

namespace ShellError

/-- Each of `cd` and `ls` has its own words for a missing path. -/
def message : ShellError → String
  | pathNotFound "cd" path => "cd: path not found: " ++ path
  | pathNotFound "ls" path => "ls: cannot access '" ++ path ++ "': No such file or directory"
  | pathNotFound command path => command ++ ": " ++ path ++ ": No such file or directory"
  | notADirectory command path => command ++ ": not a directory: " ++ path
  | isADirectory command path => command ++ ": " ++ path ++ ": Is a directory"
  | missingOperand command => command ++ ": missing operand"
  | unknownCommand name => "command not found: " ++ name

def ofPath (command : String) : PathError → ShellError
  | .notFound path => pathNotFound command path
  | .notADirectory path => notADirectory command path

end ShellError

/-! ## Commands and outcomes -/

structure Context where
  args : List String
  cwd : String
  fs : FileSystem

structure Outcome where
  output : String := ""
  cwd? : Option String := none
  fs? : Option FileSystem := none
  error? : Option ShellError := none
  clear : Bool := false
  deriving DecidableEq, Repr

namespace Outcome

def success (output : String) : Outcome := { output }

def failure (error : ShellError) : Outcome := { error? := some error }

def changeDirectory (cwd : String) : Outcome := { cwd? := some cwd }

def clearScreen : Outcome := { clear := true }

end Outcome

structure Command where
  name : String
  run : Context → Outcome

/-- A command that does the same whenever it is called. -/
def Command.fixed (name : String) (outcome : Outcome) : Command := ⟨name, fun _ => outcome⟩

/-- A command like `Command.fixed`, but its output also shows the directory and the arguments
it was given, with a bar between each two parts. -/
def Command.echoing (name : String) (outcome : Outcome) : Command :=
  ⟨name, fun c =>
    { outcome with output := outcome.output ++ "|" ++ c.cwd ++ "|" ++ Text.join "|" c.args }⟩

end TreeShell

/-! ## The built-in commands

None of them changes the tree, and only `cd` changes the directory. `ls` looks its directory up
as it stands, while `cd` and `cat` resolve their operand first; all ignore further operands. -/

namespace TreeShell.Builtin
open Markup (paint)

def home : String := "/home/user"

def pwd : Command := ⟨"pwd", fun c => .success c.cwd⟩

def echo : Command := ⟨"echo", fun c => .success (Text.join " " c.args)⟩

/-- A directory is shown in blue with a slash after its name. -/
def listing (entry : String × Node) : String :=
  if entry.2.isDirectory then paint Markup.blue (entry.1 ++ "/") else entry.1

def ls : Command := ⟨"ls", fun c =>
  match (c.fs.lookup c.cwd).bind Node.children? with
  | some children => .success (Text.join "\n" (children.map listing))
  | none => .failure (.pathNotFound "ls" c.cwd)⟩

def cd : Command := ⟨"cd", fun c =>
  let target := c.args.headD home
  match c.fs.resolve c.cwd target with
  | .error e => .failure (.ofPath "cd" e)
  | .ok path =>
    match c.fs.lookup path with
    | some (.directory _) => .changeDirectory path
    | _ => .failure (.notADirectory "cd" target)⟩

def cat : Command := ⟨"cat", fun c =>
  match c.args with
  | [] => .failure (.missingOperand "cat")
  | target :: _ =>
    match c.fs.resolve c.cwd target with
    | .error e => .failure (.ofPath "cat" e)
    | .ok path =>
      match c.fs.lookup path with
      | some (.file content) => .success content
      | some (.directory _) => .failure (.isADirectory "cat" target)
      | none => .failure (.pathNotFound "cat" target)⟩

def clear : Command := ⟨"clear", fun _ => .clearScreen⟩

def usages : List (String × String) :=
  [("pwd", "Print name of current/working directory"),
    ("ls", "List directory contents"),
    ("cd [path]", "Change the working directory"),
    ("echo [text]", "Display a line of text"),
    ("cat [file]", "Concatenate and display files"),
    ("clear", "Clear the terminal screen"),
    ("help", "Display this help message")]

/-- The descriptions stand below each other, three spaces after the widest usage. -/
def helpText : String :=
  let width := (usages.map (·.1.length)).foldl max 0
  let line (entry : String × String) : String :=
    "  " ++ paint Markup.brightYellow entry.1
      ++ String.ofList (List.replicate (width - entry.1.length) ' ') ++ "   - " ++ entry.2
  Text.join "\n" (paint Markup.brightCyan "Echo Shell - Available Commands:" :: usages.map line)

def help : Command := ⟨"help", fun _ => .success helpText⟩

def all : List Command := [pwd, ls, cd, echo, cat, clear, help]

end TreeShell.Builtin
