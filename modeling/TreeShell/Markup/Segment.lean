/-! # Inline color markup

An escape is the character ESC, a bracket, one or two digits and the letter `m`. A text is cut
into marks, which are its characters and its escapes; segments are the runs of characters
between escapes, each with the color that the escapes before it leave active, and stripping
keeps the characters alone. -/

/-! ## Colors

Eight logical colors, each selected by a plain and a bright escape code and shown through a
token of the reader's theme. -/

namespace TreeShell.Markup

inductive Color where
  | black
  | red
  | green
  | yellow
  | blue
  | magenta
  | cyan
  | white
  deriving DecidableEq, Repr

namespace Color

def all : List Color := [black, red, green, yellow, blue, magenta, cyan, white]

/-- Codes 30 to 37 and 90 to 97 select the colors in order. -/
def ofCode? (code : Nat) : Option Color :=
  if 30 ≤ code ∧ code ≤ 37 then all[code - 30]?
  else if 90 ≤ code ∧ code ≤ 97 then all[code - 90]?
  else none

def name : Color → String
  | black => "Black"
  | red => "Red"
  | green => "Green"
  | yellow => "Yellow"
  | blue => "Blue"
  | magenta => "Magenta"
  | cyan => "Cyan"
  | white => "White"

def token : Color → String
  | black => "muted-foreground"
  | red => "destructive"
  | green => "chart-2"
  | yellow => "chart-4"
  | blue => "primary"
  | magenta => "chart-5"
  | cyan => "chart-1"
  | white => "foreground"

end Color

/-! ## Marks and segments -/

def red : Nat := 31

def blue : Nat := 34

def brightYellow : Nat := 93

def brightCyan : Nat := 96

/-- The text between the escape with the given code and a reset. -/
def paint (code : Nat) (text : String) : String :=
  "\x1b[" ++ String.ofList (Nat.toDigits 10 code) ++ "m" ++ text ++ "\x1b[0m"

inductive Mark where
  | char (c : Char)
  | escape (code : Nat)
  deriving DecidableEq, Repr

/-- The code and the length of the escape at the start of `cs`. -/
def escape? : List Char → Option (Nat × Nat)
  | '\x1b' :: '[' :: a :: 'm' :: _ =>
    if a.isDigit then some (a.toNat - '0'.toNat, 4) else none
  | '\x1b' :: '[' :: a :: b :: 'm' :: _ =>
    if a.isDigit && b.isDigit then
      some (10 * (a.toNat - '0'.toNat) + (b.toNat - '0'.toNat), 5)
    else none
  | _ => none

/-- The marks of a text whose first `skip` characters belong to an escape already taken. -/
def marks (skip : Nat) : List Char → List Mark
  | [] => []
  | c :: cs =>
    match skip with
    | skip + 1 => marks skip cs
    | 0 =>
      match escape? (c :: cs) with
      | some (code, length) => .escape code :: marks (length - 1) cs
      | none => .char c :: marks 0 cs

/-- The characters before the first escape, and each escape with the characters after it. -/
def runs : List Mark → List Char × List (Nat × List Char)
  | [] => ([], [])
  | .char c :: ms => ((c :: (runs ms).1), (runs ms).2)
  | .escape code :: ms => ([], ((code, (runs ms).1) :: (runs ms).2))

/-- The color that an escape leaves active: code 0 takes the color away, a code of no color
changes nothing. -/
def recolor (color : Option Color) (code : Nat) : Option Color :=
  if code = 0 then none else (Color.ofCode? code).or color

structure Segment where
  color : Option Color
  text : String
  deriving DecidableEq, Repr

def colored (color : Option Color) (run : List Char) : List (Nat × List Char) → List Segment
  | [] => [⟨color, String.ofList run⟩]
  | (code, next) :: rest => ⟨color, String.ofList run⟩ :: colored (recolor color code) next rest

/-- The runs of `text` with their colors, empty runs left out. -/
def segments (text : String) : List Segment :=
  let (first, rest) := runs (marks 0 text.toList)
  (colored none first rest).filter (·.text != "")

def Mark.char? : Mark → Option Char
  | .char c => some c
  | .escape _ => none

/-- The text without its escapes. -/
def strip (text : String) : String :=
  String.ofList ((marks 0 text.toList).filterMap Mark.char?)

end TreeShell.Markup
