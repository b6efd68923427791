import TreeShell.Json.Format
import TreeShell.Json.Value
import TreeShell.Text.Basic

/-! # Display settings

The size of the font, the theme of the prompt and the style of the cursor. -/

namespace TreeShell

inductive Theme where
  | echoShell
  | powershell
  deriving DecidableEq, Repr

inductive CursorStyle where
  | block
  | underline
  | bar
  deriving DecidableEq, Repr

structure Settings where
  fontSize : UInt32 := 14
  theme : Theme := .echoShell
  cursorStyle : CursorStyle := .block
  deriving DecidableEq, Repr

namespace Settings

def minFontSize : UInt32 := 10

def maxFontSize : UInt32 := 24

def clamp (size : UInt32) : UInt32 :=
  if size < minFontSize then minFontSize else if maxFontSize < size then maxFontSize else size

/-- Sets the font size as far as the supported sizes go. -/
def resize (s : Settings) (size : UInt32) : Settings := { s with fontSize := clamp size }

end Settings

/-! ## Settings as JSON

A record of the three settings under the names `fontSize`, `theme` and `cursorStyle`. What a
text leaves out has its default; the font size is read as it stands. -/

open Json (Value Doc)

def Theme.name : Theme → String
  | echoShell => "echo-shell"
  | powershell => "powershell"

def Theme.ofName? : String → Option Theme
  | "echo-shell" => some echoShell
  | "powershell" => some powershell
  | _ => none

def CursorStyle.name : CursorStyle → String
  | block => "block"
  | underline => "underline"
  | bar => "bar"

def CursorStyle.ofName? : String → Option CursorStyle
  | "block" => some block
  | "underline" => some underline
  | "bar" => some bar
  | _ => none

namespace Settings

def doc (s : Settings) : Doc :=
  .record [("fontSize", .number s.fontSize.toNat), ("theme", .text s.theme.name),
    ("cursorStyle", .text s.cursorStyle.name)]

def toJson (s : Settings) : String := s.doc.compact

def fontSize? (v : Value) : Option UInt32 :=
  match v.natural? with
  | some n => if n < UInt32.size then some (UInt32.ofNat n) else none
  | none => none

def theme? (v : Value) : Option Theme := v.choice?.bind Theme.ofName?

def cursorStyle? (v : Value) : Option CursorStyle := v.choice?.bind CursorStyle.ofName?

/-- A field that was not given has its default, one that was given must be readable. -/
def orDefault {α : Type} (default : α) (read : Value → Option α) : Option Value → Option α
  | none => some default
  | some v => read v

def ofValue? (v : Value) : Option Settings :=
  match v.fields? ["fontSize", "theme", "cursorStyle"] with
  | some [size, theme, style] => do
    let size ← orDefault 14 fontSize? size
    let theme ← orDefault .echoShell theme? theme
    let style ← orDefault .block cursorStyle? style
    return ⟨size, theme, style⟩
  | _ => none

def ofJson? (text : String) : Option Settings := (Json.parse text).bind ofValue?

end Settings

/-! ## Stored settings

Settings are kept in one file of a directory. The place of that file may be blocked: the
directory may itself be a file, or the file a directory. Then nothing can be read or written;
a failed write changes nothing. -/

open Text (Bytes)

/-- Why the bytes of a file cannot be read. -/
inductive ReadError where
  | missing
  | isDirectory
  | notADirectory
  | notText
  | other (reason : String)
  deriving DecidableEq, Repr

def ReadError.message : ReadError → String
  | missing => "No such file or directory (os error 2)"
  | isDirectory => "Is a directory (os error 21)"
  | notADirectory => "Not a directory (os error 20)"
  | notText => "stream did not contain valid UTF-8"
  | other reason => reason

inductive SettingsError where
  | inaccessible
  | malformed
  deriving DecidableEq, Repr

def SettingsError.message : SettingsError → String
  | inaccessible => "failed to access settings"
  | malformed => "malformed settings"

/-- A warning that the settings at a path cannot be used, and why. -/
structure Warning where
  path : String
  cause : SettingsError
  deriving DecidableEq, Repr

/-- The message without what the host and the reader of JSON have to say of the cause. -/
def Warning.message (w : Warning) : String := "failed to load settings: " ++ w.cause.message

/-- What is found at the place of the settings file. -/
inductive Stored where
  | nothing
  | bytes (content : Bytes)
  | directory
  | belowFile
  deriving DecidableEq, Repr

namespace Settings

def fileName : String := "echo-shell-settings.json"

/-- The settings in what was read from the file: none if there is no file. The font size is
brought into the supported range. -/
def ofRead : Except ReadError Bytes → Except SettingsError (Option Settings)
  | .error .missing => .ok none
  | .error _ => .error .inaccessible
  | .ok bytes =>
    match Text.decode? bytes with
    | none => .error .inaccessible
    | some text =>
      match ofJson? text with
      | none => .error .malformed
      | some s => .ok (some (s.resize s.fontSize))

/-- The settings read, or the defaults. -/
def orDefaults : Except SettingsError (Option Settings) → Settings
  | .ok (some s) => s
  | _ => {}

/-- A warning if what is at the path cannot be read as settings. That nothing is there is fine. -/
def warning? (path : String) : Except SettingsError (Option Settings) → Option Warning
  | .ok _ => none
  | .error cause => some ⟨path, cause⟩

end Settings

namespace Stored

def read : Stored → Except ReadError Bytes
  | nothing => .error .missing
  | bytes content => .ok content
  | directory => .error .isDirectory
  | belowFile => .error .notADirectory

/-- Makes the directory if need be and puts the bytes into the file. -/
def write (content : Bytes) : Stored → Except SettingsError Unit × Stored
  | nothing => (.ok (), bytes content)
  | bytes _ => (.ok (), bytes content)
  | directory => (.error .inaccessible, directory)
  | belowFile => (.error .inaccessible, belowFile)

/-- Puts an empty file in place of the directory. -/
def blockDirectory (_ : Stored) : Stored := belowFile

/-- Puts a directory in place of the file. -/
def blockFile : Stored → Stored
  | belowFile => belowFile
  | _ => directory

def text? : Stored → Option String
  | bytes content => Text.decode? content
  | _ => none

def tryLoad (s : Stored) : Except SettingsError (Option Settings) := Settings.ofRead s.read

def load (s : Stored) : Settings := Settings.orDefaults s.tryLoad

def save (settings : Settings) (s : Stored) : Except SettingsError Unit × Stored :=
  s.write (Text.encode settings.toJson)

end Stored

/-- What may happen to stored settings. -/
inductive StoreStep where
  | write (content : Bytes)
  | blockDirectory
  | blockFile
  | save (settings : Settings)
  deriving DecidableEq, Repr

def StoreStep.apply : StoreStep → Stored → Except SettingsError Unit × Stored
  | .write content, s => s.write content
  | .blockDirectory, s => (.ok (), s.blockDirectory)
  | .blockFile, s => (.ok (), s.blockFile)
  | .save settings, s => s.save settings

end TreeShell
