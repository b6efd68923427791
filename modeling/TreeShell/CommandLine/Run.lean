import TreeShell.CommandLine.Options
import TreeShell.Session.Action
import TreeShell.Settings.Store
import TreeShell.Suggest.Fetcher
import TreeShell.Tree.Edit

/-! # The program

A run of the program reads a tree and settings from the host if it is asked to, starts a session
and then prints suggestions, submits one line, or submits the lines of its input until one says
`exit`. A line of the input that starts with a question mark asks for suggestions instead. What
the run does to the world is a list of effects and an exit code. -/

/-! ## The host

The program reads a few files of the machine it runs on and writes warnings to a log. A host answers
a path with the bytes of a file or the reason why there are none, and a warning with the text that
the log has for it, which is empty if warnings are kept out of the log. What is less than a warning
is kept out of it, as it is unless the log is told otherwise. -/

namespace TreeShell
open Text (Bytes)

structure Host where
  read : String → Except ReadError Bytes
  log : Warning → String

namespace Host

def readText (host : Host) (path : String) : Except ReadError String :=
  match host.read path with
  | .error e => .error e
  | .ok bytes =>
    match Text.decode? bytes with
    | none => .error .notText
    | some text => .ok text

/-- A host with its log turned off. Its working directory holds the given files, named by relative
paths, and lies right below the root. -/
def ofFiles (files : List (String × String)) : Host where
  read path :=
    let dir := files.foldl (fun fs file => (fs.insertFile file.1 file.2).2) FileSystem.empty
    let start : Position := ⟨dir.root, [("work", .directory [("work", dir.root)])]⟩
    match start.walk path with
    | .error .missing => .error .missing
    | .error .notADirectory => .error .notADirectory
    | .ok ⟨.directory _, _⟩ => .error .isDirectory
    | .ok ⟨.file content, _⟩ => .ok (Text.encode content)
  log _ := ""

end Host

end TreeShell

namespace TreeShell.CommandLine
open Suggest (Fetcher Provider)
open Text (Bytes)

/-! ## Effects -/

inductive Effect where
  | print (text : String)
  | complain (text : String)
  | wait (latency : Latency)
  deriving DecidableEq, Repr

structure Report where
  effects : List Effect
  code : Nat
  deriving DecidableEq, Repr

namespace Report

def stdout (r : Report) : String :=
  Text.join "" (r.effects.filterMap fun | .print text => some text | _ => none)

def stderr (r : Report) : String :=
  Text.join "" (r.effects.filterMap fun | .complain text => some text | _ => none)

end Report

/-! ## Lines of the input -/

/-- A carriage return belongs to the line feed after it. -/
def withoutReturn (line : Bytes) : Bytes :=
  if line.getLast? == some 13 then line.dropLast else line

/-- The lines of the input. The last one may lack its line feed; a line that is no text is
`none`. -/
def inputLines (input : Bytes) : List (Option String) :=
  let pieces := Text.pieces (· == 10) input
  let last := pieces.getLastD []
  pieces.dropLast.map (fun line => Text.decode? (withoutReturn line))
    ++ if last.isEmpty then [] else [Text.decode? last]

/-! ## Answers to lines -/

/-- What a run keeps from line to line. -/
structure State where
  session : Session
  fetcher : Fetcher

/-- Suggestions for `input` after the lines submitted so far. -/
def State.suggest (s : State) (input : String) : List String × State :=
  let f := (s.fetcher.schedule ⟨input, s.session.recentHistory⟩).settle
  (f.latest, { s with fetcher := f })

def rendered (o : Options) (text : String) : String := if o.plain then Markup.strip text else text

/-- The result of a line as a record on a line of its own. -/
def record (i : Interpretation) : String :=
  (Json.Doc.record [("cwd", .text i.cwd),
    ("error", match i.error? with | some e => .text e.message | none => .null),
    ("output", .text i.output)]).compact ++ "\n"

/-- Clears the screen and moves the cursor to its corner. -/
def clearScreen : String := "\x1b[2J\x1b[H"

/-- What is shown of an interpretation that raised `notes`. -/
def shown (o : Options) (i : Interpretation) (notes : List Notification) : List Effect :=
  if o.json then [.print (record i)]
  else
    (if i.clear then [.print clearScreen]
      else if i.output = "" then []
      else [.print (rendered o i.output ++ "\n")])
    ++ if i.output = "" then
        notes.map fun note => .complain (note.title ++ ": " ++ note.description ++ "\n")
      else []

/-- Submits a line. The flag says whether it failed. -/
def State.submit (o : Options) (s : State) (line : String) : Bool × List Effect × State :=
  match s.session.submit line with
  | (none, session) => (false, [], { s with session })
  | (some i, session) =>
    let (notes, session) := session.takeNotifications
    (i.error?.isSome, .wait session.latency :: shown o i notes, { s with session })

/-- Does what a line of the input asks for. -/
def State.respond (o : Options) (s : State) (line : String) : List Effect × State :=
  match line.toList with
  | '?' :: input =>
    let (found, s) := s.suggest (String.ofList input)
    ([.print (Text.join "  " found ++ "\n")], s)
  | _ => (s.submit o line).2

def isExit (line : String) : Bool := Text.trim line == "exit"

def State.respondAll (o : Options) (s : State) : List (Option String) → List Effect
  | [] => []
  | none :: _ => []
  | some line :: rest =>
    if isExit line then []
    else
      let (effects, s) := s.respond o line
      effects ++ s.respondAll o rest

/-! ## Runs -/

/-- The tree in the file that the options name, or the message that it cannot be loaded. -/
def loadTree (host : Host) (o : Options) : Except String FileSystem :=
  match o.tree? with
  | none => .ok .seed
  | some path =>
    let failed (reason : String) : Except String FileSystem :=
      .error ("Error: Cannot load file system: " ++ path ++ ": " ++ reason ++ "\n")
    match host.readText path with
    | .error e => failed e.message
    | .ok text =>
      match FileSystem.ofJson text with
      | .error e => failed e.message
      | .ok fs => .ok fs

def settingsPath (dir : String) : String := Path.join dir Settings.fileName

/-- The settings to start with. If those that the options ask for cannot be read, they are the
defaults and there is a warning. -/
def loadSettings (host : Host) (o : Options) : Settings × Option Warning :=
  match o.settingsDir? with
  | none => ({}, none)
  | some dir =>
    let path := settingsPath dir
    let found := Settings.ofRead (host.read path)
    (Settings.orDefaults found, Settings.warning? path found)

/-- The log goes where complaints go. -/
def logged (host : Host) (warning? : Option Warning) : List Effect :=
  warning?.toList.map fun warning => .complain (host.log warning)

/-- A single line is submitted without a delay unless one is asked for. -/
def latencyOf (o : Options) : Latency :=
  match o.latency?, o.command? with
  | some ms, _ => .fixed ms
  | none, some _ => .none
  | none, none => .standard

/-- What is logged on the way to the first state, and this state or the message that there is none.
Without a tree the settings are not looked at. -/
def start (host : Host) (o : Options) : List Effect × Except String State :=
  match loadTree host o with
  | .error message => ([], .error message)
  | .ok fs =>
    let loaded := loadSettings host o
    let created := Session.create
      { cwd := o.cwd?.getD Builtin.home, fs, settings := loaded.1, latency := latencyOf o }
    (logged host loaded.2,
      match created with
      | .error e => .error ("Error: " ++ e.message ++ "\n")
      | .ok session => .ok ⟨session, { provider := .builtin, debounce := 0 }⟩)

def Options.run (o : Options) (host : Host) (input : Bytes) : Report :=
  let (log, started) := start host o
  match started with
  | .error message => ⟨log ++ [.complain message], 1⟩
  | .ok s =>
    match o.suggest?, o.command? with
    | some text, _ => ⟨log ++ (s.suggest text).1.map fun found => .print (found ++ "\n"), 0⟩
    | none, some line =>
      let (failed, effects, _) := s.submit o line
      ⟨log ++ effects, if failed then 1 else 0⟩
    | none, none => ⟨log ++ s.respondAll o (inputLines input), 0⟩

def version : String := "echo-shell 0.1.0\n"

def help : String :=
  "A simulated shell over an in-memory file system\n\n"
    ++ "Usage: echo-shell [OPTIONS]\n\n"
    ++ "Options:\n"
    ++ "  -c <COMMAND>                       Run a single command line and exit\n"
    ++ "      --cwd <CWD>                    Starting working directory\n"
    ++ "      --fs <FS>                      Load the file system tree from a JSON file instead of the seed tree\n"
    ++ "      --json                         Output results as JSON (output, cwd, error)\n"
    ++ "      --plain                        Strip color markup from output\n"
    ++ "      --settings-dir <SETTINGS_DIR>  Directory holding persisted display settings\n"
    ++ "      --latency-ms <LATENCY_MS>      Fixed simulated execution delay in milliseconds (default: random 100-300)\n"
    ++ "      --suggest <SUGGEST>            Print suggestions for the given input and exit\n"
    ++ "  -h, --help                         Print help\n"
    ++ "  -V, --version                      Print version\n\n"
    ++ "Without -c, lines are read from stdin. Type `exit` to quit (a REPL keyword, not a shell command) "
    ++ "and `?<text>` to list suggestions.\n"

/-- A run of the program with the given arguments and input. -/
def run (host : Host) (args : List String) (input : Bytes) : Report :=
  match ({} : Options).read args with
  | .error e => ⟨[.complain (e.message ++ "\n")], 2⟩
  | .ok .help => ⟨[.print help], 0⟩
  | .ok .version => ⟨[.print version], 0⟩
  | .ok (.run o) => o.run host input

/-- The files that a run with these arguments may read. -/
def filesRead (args : List String) : List String :=
  match ({} : Options).read args with
  | .ok (.run o) => o.tree?.toList ++ o.settingsDir?.toList.map settingsPath
  | _ => []

/-- Whether a run with these arguments looks at its input. -/
def readsInput (args : List String) : Bool :=
  match ({} : Options).read args with
  | .ok (.run o) => o.command?.isNone && o.suggest?.isNone
  | _ => false

end TreeShell.CommandLine
