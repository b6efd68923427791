import TreeShell.Settings.Store
import TreeShell.Shell.Interpret
import TreeShell.Text.Basic
import TreeShell.Tree.Node

/-! # Sessions

A session threads its directory and its tree through the lines that are submitted to it, and
keeps what was shown, what was submitted and what went wrong. While the user steps through the
history a cursor points at an entry of it. -/

/-! ## Latency

A submitted line takes a time, in milliseconds, from a range that holds its lower end but not
its upper end. A range that holds nothing stands for its lower end alone. -/

namespace TreeShell

structure Latency where
  least : Nat
  bound : Nat
  deriving DecidableEq, Repr

namespace Latency

def none : Latency := ⟨0, 0⟩

def fixed (delay : Nat) : Latency := ⟨delay, delay⟩

def standard : Latency := ⟨100, 300⟩

/-- The delay that the number `draw` picks from the range. -/
def pick (l : Latency) (draw : Nat) : Nat :=
  if l.bound ≤ l.least then l.least else l.least + draw % (l.bound - l.least)

end Latency

/-! ## Creating and using a session -/

inductive SessionError where
  | missingDirectory (path : String)
  | notADirectory (path : String)
  deriving DecidableEq, Repr

def SessionError.message : SessionError → String
  | missingDirectory path => "working directory does not exist: " ++ path
  | notADirectory path => "working directory is not a directory: " ++ path

structure Notification where
  title : String
  description : String
  deriving DecidableEq, Repr

structure Session where
  cwd : String
  fs : FileSystem
  settings : Settings
  latency : Latency
  /-- How many past lines go along with a request for suggestions. -/
  window : Nat
  /-- The lines shown since the screen was cleared. -/
  transcript : List String
  /-- The lines submitted, most recent first. -/
  history : List String
  /-- The entry of the history that is shown, none at the live prompt. -/
  cursor : Option Nat
  notifications : List Notification

structure SessionOptions where
  cwd : String := Builtin.home
  fs : FileSystem := .seed
  settings : Settings := {}
  latency : Latency := .standard
  window : Nat := 5

namespace Session

/-- A fresh session in the directory that `options.cwd` names from the root. -/
def create (options : SessionOptions) : Except SessionError Session :=
  let cwd := Path.normalize "/" options.cwd
  match options.fs.lookup cwd with
  | none => .error (.missingDirectory cwd)
  | some node =>
    if node.isDirectory then
      .ok ⟨cwd, options.fs, options.settings, options.latency, options.window, [], [], none, []⟩
    else .error (.notADirectory cwd)

def promptFor (theme : Theme) (cwd : String) : String :=
  match theme with
  | .echoShell => cwd ++ "¶"
  | .powershell =>
    "PS " ++ String.ofList (cwd.toList.map fun c => if c = '/' then '\\' else c) ++ "¶"

def prompt (s : Session) : String := promptFor s.settings.theme s.cwd

/-- A line of blanks is echoed and nothing else. -/
def isBlankLine (line : String) : Bool := Text.trim line == ""

def notificationOf (error : ShellError) : Notification := ⟨"Command Error", error.message⟩

/-- The session after `line` was echoed and interpreted as `i`. -/
def adopt (s : Session) (line : String) (i : Interpretation) : Session :=
  let echoed := s.transcript ++ [s.prompt ++ " " ++ line]
  { s with
    cwd := i.cwd
    fs := i.fs s.fs
    transcript := if i.clear then [] else echoed ++ Text.split '\n' i.output
    notifications :=
      if i.clear then s.notifications
      else s.notifications ++ i.error?.toList.map notificationOf
    history := line :: s.history
    cursor := none }

def submit (s : Session) (line : String) : Option Interpretation × Session :=
  if isBlankLine line then (none, { s with transcript := s.transcript ++ [s.prompt ++ " "] })
  else
    let i := interpret line s.cwd s.fs
    (some i, s.adopt line i)

/-- How long submitting `line` takes when `draw` picks the delay. -/
def delay (s : Session) (line : String) (draw : Nat) : Nat :=
  if isBlankLine line then 0 else s.latency.pick draw

/-- Steps to an older line; without a history nothing happens. -/
def historyUp (s : Session) : Option String × Session :=
  if s.history.isEmpty then (none, s)
  else
    let next := match s.cursor with
      | none => 0
      | some i => min (i + 1) (s.history.length - 1)
    (s.history[next]?, { s with cursor := some next })

/-- Steps to a newer line, from the newest to the empty live prompt. -/
def historyDown (s : Session) : Option String × Session :=
  match s.cursor with
  | none => (none, s)
  | some 0 => (some "", { s with cursor := none })
  | some (i + 1) => (s.history[i]?, { s with cursor := some i })

/-- The most recent lines, oldest first, as many as the window holds. -/
def recentHistory (s : Session) : List String := (s.history.take s.window).reverse

/-- Hands over the notifications that have come up since the last time. -/
def takeNotifications (s : Session) : List Notification × Session :=
  (s.notifications, { s with notifications := [] })

def setSettings (s : Session) (settings : Settings) : Session := { s with settings }

end Session

/-! ## Actions on a session

Everything that can be done with a session once it exists, as data, so that a whole run is a
list of actions. -/

inductive Action where
  | submit (line : String)
  | historyUp
  | historyDown
  | recentHistory
  | takeNotifications
  | setSettings (settings : Settings)

inductive Reply where
  | nothing
  | interpreted (result : Option Interpretation)
  | line (entry : Option String)
  | lines (entries : List String)
  | notifications (raised : List Notification)

namespace Session

def perform (s : Session) : Action → Reply × Session
  | .submit line => let (result, s) := s.submit line; (.interpreted result, s)
  | .historyUp => let (entry, s) := s.historyUp; (.line entry, s)
  | .historyDown => let (entry, s) := s.historyDown; (.line entry, s)
  | .recentHistory => (.lines s.recentHistory, s)
  | .takeNotifications => let (raised, s) := s.takeNotifications; (.notifications raised, s)
  | .setSettings settings => (.nothing, s.setSettings settings)

/-- The replies to a list of actions and the session after them. -/
def performAll (s : Session) : List Action → List Reply × Session
  | [] => ([], s)
  | a :: rest =>
    let (reply, s) := s.perform a
    let (replies, s) := s.performAll rest
    (reply :: replies, s)

end Session

end TreeShell
