import TreeShell.Shell.Command
import TreeShell.Text.Basic

/-! # Interpreting lines

What a line does in a directory of a tree, with the commands of a registry. Nothing is kept
from one line to the next but the directory and the tree that an interpretation hands on. -/

/-! ## Invocations

A line invokes a command by its words: the first is the name of the command, the others are
its arguments. There is no quoting. -/

namespace TreeShell

structure Invocation where
  name : String
  args : List String
  deriving DecidableEq, Repr

/-- A line of blanks invokes nothing. -/
def Invocation.parse? (line : String) : Option Invocation :=
  match Text.words line with
  | [] => none
  | name :: args => some ⟨name, args⟩

/-! ## Registries of commands

A registry keeps its commands in the order of their names, which is by code points, and one
command for each name: the one that was registered last. -/

structure Registry where
  commands : List Command

namespace Registry

def empty : Registry := ⟨[]⟩

def put (command : Command) : List Command → List Command
  | [] => [command]
  | c :: cs =>
    if command.name < c.name then command :: c :: cs
    else if command.name = c.name then command :: cs
    else c :: put command cs

def register (r : Registry) (command : Command) : Registry := ⟨put command r.commands⟩

def registerAll (r : Registry) (commands : List Command) : Registry := commands.foldl register r

def get? (r : Registry) (name : String) : Option Command := r.commands.find? (·.name == name)

def contains (r : Registry) (name : String) : Bool := (r.get? name).isSome

def names (r : Registry) : List String := r.commands.map Command.name

/-- The registry of the built-in commands. -/
def builtin : Registry := empty.registerAll Builtin.all

@[simp] theorem get?_empty (name : String) : empty.get? name = none := rfl

theorem get?_register (r : Registry) (command : Command) (name : String) :
    (r.register command).get? name = if command.name = name then some command else r.get? name := by
  obtain ⟨commands⟩ := r
  simp only [register, get?]
  induction commands with
  | nil => by_cases h : command.name = name <;> simp [put, h]
  | cons c cs ih =>
    simp only [put]
    split
    · by_cases h : command.name = name <;> simp [h]
    · split
      · rename_i hc
        by_cases h : command.name = name
        · simp [h]
        · simp [h, ← hc]
      · rename_i hc
        by_cases h : c.name = name
        · have : command.name ≠ name := fun e => hc (e.trans h.symm)
          simp [h, this]
        · simp [h, ih]

/-- The last command of a name that is registered answers to it. -/
theorem get?_registerAll (r : Registry) (commands : List Command) (name : String) :
    (r.registerAll commands).get? name =
      (commands.reverse.find? (·.name == name)).or (r.get? name) := by
  induction commands generalizing r with
  | nil => rfl
  | cons c commands ih =>
    change ((r.register c).registerAll commands).get? name = _
    rw [ih, get?_register, List.reverse_cons, List.find?_append, Option.or_assoc]
    by_cases h : c.name = name <;> simp [h]

end Registry

/-! ## Interpretations -/

structure Interpretation where
  output : String
  cwd : String
  error? : Option ShellError
  clear : Bool
  /-- The tree that a command put in place of the one it was given. -/
  replaced? : Option FileSystem
  deriving DecidableEq, Repr

namespace Interpretation

/-- The interpretation of a line that does nothing. -/
def idle (cwd : String) : Interpretation := ⟨"", cwd, none, false, none⟩

/-- The tree to go on with. -/
def fs (i : Interpretation) (given : FileSystem) : FileSystem := i.replaced?.getD given

def ofOutcome (cwd : String) (o : Outcome) : Interpretation :=
  ⟨o.output, o.cwd?.getD cwd, o.error?, o.clear, o.fs?⟩

/-- The message of an unknown command is also its output, in red. -/
def unknown (cwd name : String) : Interpretation :=
  let error := ShellError.unknownCommand name
  ⟨Markup.paint Markup.red error.message, cwd, some error, false, none⟩

end Interpretation

def Registry.interpret (r : Registry) (line cwd : String) (fs : FileSystem) : Interpretation :=
  match Invocation.parse? line with
  | none => .idle cwd
  | some c =>
    match r.get? c.name with
    | none => .unknown cwd c.name
    | some command => .ofOutcome cwd (command.run ⟨c.args, cwd, fs⟩)

/-- Interprets `line` with the built-in commands. -/
def interpret (line cwd : String) (fs : FileSystem) : Interpretation :=
  Registry.builtin.interpret line cwd fs

/-- The interpretations of the lines of a script, each in the directory and tree that the one
before it leaves. -/
def Registry.script (r : Registry) :
    (lines : List String) → (cwd : String) → FileSystem → List Interpretation
  | [], _, _ => []
  | line :: lines, cwd, fs =>
    let i := r.interpret line cwd fs
    i :: r.script lines i.cwd (i.fs fs)

end TreeShell
