import TreeShell.Json.Value
import TreeShell.Text.Basic

/-! # JSON texts

Values are read from texts and documents are written as texts. -/

/-! ## Reading JSON

`parse` accepts the texts of RFC 8259 and nothing else. Each reader takes the characters that
are left and returns what it read with the characters after it. The three readers of nested
values take turns on a bound on how often they call each other, and `parse` starts them with
one that no text reaches. -/

namespace TreeShell.Json
open Text (after?)

/-- Space, tab, line feed and carriage return may stand between tokens. -/
def isSpace (c : Char) : Bool := c == ' ' || c == '\t' || c == '\n' || c == '\r'

def skipSpace (cs : List Char) : List Char := cs.dropWhile isSpace

/-! ### Strings -/

def hexDigit? (c : Char) : Option Nat :=
  if '0' ≤ c ∧ c ≤ '9' then some (c.toNat - '0'.toNat)
  else if 'a' ≤ c ∧ c ≤ 'f' then some (c.toNat - 'a'.toNat + 10)
  else if 'A' ≤ c ∧ c ≤ 'F' then some (c.toNat - 'A'.toNat + 10)
  else none

def unit? (a b c d : Char) : Option Nat := do
  let a ← hexDigit? a
  let b ← hexDigit? b
  let c ← hexDigit? c
  let d ← hexDigit? d
  return ((a * 16 + b) * 16 + c) * 16 + d

/-- The character that a backslash and `c` stand for. -/
def escaped? : Char → Option Char
  | '"' => some '"'
  | '\\' => some '\\'
  | '/' => some '/'
  | 'b' => some '\x08'
  | 'f' => some '\x0c'
  | 'n' => some '\n'
  | 'r' => some '\r'
  | 't' => some '\t'
  | _ => none

/-- The code points and halves of surrogate pairs up to the closing quote. -/
def points : List Char → Option (List Nat × List Char)
  | [] => none
  | '"' :: cs => some ([], cs)
  | '\\' :: 'u' :: a :: b :: c :: d :: cs =>
    match unit? a b c d, points cs with
    | some p, some (ps, rest) => some (p :: ps, rest)
    | _, _ => none
  | '\\' :: c :: cs =>
    match escaped? c, points cs with
    | some e, some (ps, rest) => some (e.toNat :: ps, rest)
    | _, _ => none
  | c :: cs =>
    if c.toNat < 0x20 then none
    else match points cs with
      | some (ps, rest) => some (c.toNat :: ps, rest)
      | none => none

def isHighHalf (p : Nat) : Bool := 0xD800 ≤ p && p ≤ 0xDBFF

def isLowHalf (p : Nat) : Bool := 0xDC00 ≤ p && p ≤ 0xDFFF

/-- The characters of a list of points, if every half has its other half beside it. -/
def characters? : List Nat → Option (List Char)
  | [] => some []
  | [p] => if isHighHalf p || isLowHalf p then none else some [Char.ofNat p]
  | p :: q :: ps =>
    if isHighHalf p then
      if isLowHalf q then
        (characters? ps).map (Char.ofNat (0x10000 + (p - 0xD800) * 0x400 + (q - 0xDC00)) :: ·)
      else none
    else if isLowHalf p then none
    else (characters? (q :: ps)).map (Char.ofNat p :: ·)

/-- The rest of a string literal after its opening quote. -/
def stringBody (cs : List Char) : Option (Option String × List Char) :=
  (points cs).map fun (ps, rest) => ((characters? ps).map String.ofList, rest)

/-! ### Numbers -/

/-- The digits at the start of `cs`, if there are any. -/
def digits? (cs : List Char) : Option (List Char × List Char) :=
  let ds := cs.takeWhile Char.isDigit
  if ds.isEmpty then none else some (ds, cs.dropWhile Char.isDigit)

/-- No digit follows a leading zero. -/
def whole? : List Char → Option (List Char × List Char)
  | '0' :: cs => if (cs.head?.map Char.isDigit).getD false then none else some (['0'], cs)
  | cs => digits? cs

def fraction? : List Char → Option (List Char × List Char)
  | '.' :: cs => digits? cs
  | cs => some ([], cs)

def sign : List Char → Bool × List Char
  | '-' :: cs => (true, cs)
  | '+' :: cs => (false, cs)
  | cs => (false, cs)

def exponent? : List Char → Option (Option (Bool × List Char) × List Char)
  | c :: cs =>
    if c = 'e' ∨ c = 'E' then
      (digits? (sign cs).2).map fun (ds, rest) => (some ((sign cs).1, ds), rest)
    else some (none, c :: cs)
  | [] => some (none, [])

def numeral (cs : List Char) : Option (Numeral × List Char) := do
  let (negative, cs) := match cs with
    | '-' :: cs => (true, cs)
    | cs => (false, cs)
  let (whole, cs) ← whole? cs
  let (fraction, cs) ← fraction? cs
  let (exponent, cs) ← exponent? cs
  return (⟨negative, whole, fraction, exponent⟩, cs)

/-! ### Values -/

mutual

def value : Nat → List Char → Option (Value × List Char)
  | 0, _ => none
  | fuel + 1, cs =>
    match skipSpace cs with
    | [] => none
    | '"' :: cs => (stringBody cs).map fun (text, rest) => (.string text, rest)
    | '[' :: cs =>
      match skipSpace cs with
      | ']' :: rest => some (.array [], rest)
      | _ => (items fuel cs).map fun (vs, rest) => (.array vs, rest)
    | '\x7b' :: cs =>
      match skipSpace cs with
      | '\x7d' :: rest => some (.object [], rest)
      | _ => (members fuel cs).map fun (ms, rest) => (.object ms, rest)
    | 'n' :: cs => (after? ['u', 'l', 'l'] cs).map (.null, ·)
    | 't' :: cs => (after? ['r', 'u', 'e'] cs).map (.bool true, ·)
    | 'f' :: cs => (after? ['a', 'l', 's', 'e'] cs).map (.bool false, ·)
    | cs => (numeral cs).map fun (n, rest) => (.number n, rest)

/-- The values of an array after its opening bracket, up to the closing one. -/
def items : Nat → List Char → Option (List Value × List Char)
  | 0, _ => none
  | fuel + 1, cs =>
    match value fuel cs with
    | none => none
    | some (v, cs) =>
      match skipSpace cs with
      | ',' :: cs => (items fuel cs).map fun (vs, rest) => (v :: vs, rest)
      | ']' :: rest => some ([v], rest)
      | _ => none

/-- The members of an object after its opening brace, up to the closing one. -/
def members : Nat → List Char → Option (List (Option String × Value) × List Char)
  | 0, _ => none
  | fuel + 1, cs =>
    match skipSpace cs with
    | '"' :: cs =>
      match stringBody cs with
      | none => none
      | some (name, cs) =>
        match skipSpace cs with
        | ':' :: cs =>
          match value fuel cs with
          | none => none
          | some (v, cs) =>
            match skipSpace cs with
            | ',' :: cs => (members fuel cs).map fun (ms, rest) => ((name, v) :: ms, rest)
            | '\x7d' :: rest => some ([(name, v)], rest)
            | _ => none
        | _ => none
    | _ => none

end

/-- The value of a whole text, if the text is JSON. -/
def parse (text : String) : Option Value :=
  match value (2 * text.toList.length + 1) text.toList with
  | some (v, rest) => if (skipSpace rest).isEmpty then some v else none
  | none => none

/-! ## Writing JSON

A document is what the library writes: texts, natural numbers, null, lists and records. The
compact form has no spaces; the pretty form puts each item on a line of its own, two spaces
deeper than what holds it. Quotes, backslashes and the control characters below U+0020 are
escaped and nothing else is. -/

inductive Doc where
  | null
  | number (n : Nat)
  | text (s : String)
  | list (items : List Doc)
  | record (fields : List (String × Doc))

/-- The lower-case hexadecimal digit of `n % 16`. -/
def hexDigit (n : Nat) : Char := Nat.digitChar (n % 16)

def escape (c : Char) : List Char :=
  match c with
  | '"' => ['\\', '"']
  | '\\' => ['\\', '\\']
  | '\x08' => ['\\', 'b']
  | '\x0c' => ['\\', 'f']
  | '\n' => ['\\', 'n']
  | '\r' => ['\\', 'r']
  | '\t' => ['\\', 't']
  | c =>
    if c.toNat < 0x20 then ['\\', 'u', '0', '0', hexDigit (c.toNat / 16), hexDigit c.toNat]
    else [c]

def quote (s : String) : List Char := '"' :: s.toList.flatMap escape ++ ['"']

mutual

def Doc.compactChars : Doc → List Char
  | .null => ['n', 'u', 'l', 'l']
  | .number n => Nat.toDigits 10 n
  | .text s => quote s
  | .list items => '[' :: compactItems items ++ [']']
  | .record fields => '\x7b' :: compactFields fields ++ ['\x7d']

def compactItems : List Doc → List Char
  | [] => []
  | [d] => d.compactChars
  | d :: e :: ds => d.compactChars ++ ',' :: compactItems (e :: ds)

def compactFields : List (String × Doc) → List Char
  | [] => []
  | [(name, d)] => quote name ++ ':' :: d.compactChars
  | (name, d) :: f :: fs => quote name ++ ':' :: d.compactChars ++ ',' :: compactFields (f :: fs)

end

/-- The start of a line at nesting depth `depth`. -/
def newline (depth : Nat) : List Char := '\n' :: List.replicate (2 * depth) ' '

mutual

def Doc.prettyChars (depth : Nat) : Doc → List Char
  | .null => ['n', 'u', 'l', 'l']
  | .number n => Nat.toDigits 10 n
  | .text s => quote s
  | .list [] => ['[', ']']
  | .list (d :: ds) =>
    '[' :: prettyItems (depth + 1) (d :: ds) ++ newline depth ++ [']']
  | .record [] => ['\x7b', '\x7d']
  | .record (f :: fs) =>
    '\x7b' :: prettyFields (depth + 1) (f :: fs) ++ newline depth ++ ['\x7d']

def prettyItems (depth : Nat) : List Doc → List Char
  | [] => []
  | [d] => newline depth ++ d.prettyChars depth
  | d :: e :: ds => newline depth ++ d.prettyChars depth ++ ',' :: prettyItems depth (e :: ds)

def prettyFields (depth : Nat) : List (String × Doc) → List Char
  | [] => []
  | [(name, d)] => newline depth ++ quote name ++ [':', ' '] ++ d.prettyChars depth
  | (name, d) :: f :: fs =>
    newline depth ++ quote name ++ [':', ' '] ++ d.prettyChars depth ++
      ',' :: prettyFields depth (f :: fs)

end

def Doc.compact (d : Doc) : String := String.ofList d.compactChars

def Doc.pretty (d : Doc) : String := String.ofList (d.prettyChars 0)

end TreeShell.Json
