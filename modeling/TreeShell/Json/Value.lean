/-! # JSON values

What a JSON text says, before anyone asks for a type: members keep their order and their
repetitions, numbers keep their spelling. A string literal may name half of a surrogate pair,
and then it has no text. -/

namespace TreeShell.Json

/-- A number as it is spelt: sign, digits before and after the point, exponent. -/
structure Numeral where
  negative : Bool
  whole : List Char
  fraction : List Char
  exponent : Option (Bool × List Char)
  deriving DecidableEq, Repr

/-- The number that a list of decimal digits spells. -/
def decimal (digits : List Char) : Nat :=
  digits.foldl (fun n c => 10 * n + (c.toNat - '0'.toNat)) 0

/-- The natural number that a numeral without sign, point and exponent spells. -/
def Numeral.natural? (n : Numeral) : Option Nat :=
  if n.negative || !n.fraction.isEmpty || n.exponent.isSome then none
  else some (decimal n.whole)

inductive Value where
  | null
  | bool (b : Bool)
  | number (n : Numeral)
  | string (text : Option String)
  | array (items : List Value)
  | object (members : List (Option String × Value))
  deriving Repr

mutual

/-- How many brackets are open at once at most. -/
def Value.depth : Value → Nat
  | .array items => depthOfItems items + 1
  | .object members => depthOfMembers members + 1
  | _ => 0

def depthOfItems : List Value → Nat
  | [] => 0
  | v :: vs => max v.depth (depthOfItems vs)

def depthOfMembers : List (Option String × Value) → Nat
  | [] => 0
  | (_, v) :: ms => max v.depth (depthOfMembers ms)

end

def Value.natural? : Value → Option Nat
  | .number n => n.natural?
  | _ => none

def Value.text? : Value → Option String
  | .string text => text
  | _ => none

/-- The texts of an array of strings. -/
def Value.texts? : Value → Option (List String)
  | .array items => items.mapM Value.text?
  | _ => none

/-! ## The range of numbers

A reader that keeps every number as a 64-bit integer or a double refuses a numeral whose value
is too large for a double. The test works on the digits that fit an unsigned 64-bit
significand: their double times the double of the remaining power of ten must not round to
infinity. Small numerals are never refused, however many digits they have. -/

/-- Reads the digits one by one while the significand stays below `2 ^ 64`, and counts them. -/
def significand (start : Nat) : List Char → Nat × Nat
  | [] => (start, 0)
  | c :: cs =>
    let next := 10 * start + (c.toNat - '0'.toNat)
    if next < UInt64.size then
      let (total, used) := significand next cs
      (total, used + 1)
    else (start, 0)

/-- The number `n` rounded to 53 significant bits, a tie going to the even neighbour. -/
def round53 (n : Nat) : Nat :=
  if n < Nat.pow 2 53 then n
  else
    let ulp := Nat.pow 2 (n.log2 - 52)
    let low := n / ulp
    let rest := n % ulp
    if 2 * rest < ulp || (2 * rest == ulp && low % 2 == 0) then low * ulp else (low + 1) * ulp

/-- The significand of a numeral and the power of ten it is scaled by. -/
def Numeral.scaled (n : Numeral) : Nat × Int :=
  let (first, used) := significand 0 n.whole
  let (total, places) := significand first n.fraction
  let shift : Int := match n.exponent with
    | none => 0
    | some (true, ds) => -(decimal ds : Int)
    | some (false, ds) => decimal ds
  (total, ((n.whole.length - used : Nat) : Int) - places + shift)

/-- The least natural number that rounds to infinity as a double. -/
def overflow : Nat := Nat.pow 2 1024 - Nat.pow 2 970

def Numeral.inRange (n : Numeral) : Bool :=
  let (total, scale) := n.scaled
  total == 0 || scale < 0 ||
    (scale ≤ 308 && round53 total * round53 (Nat.pow 10 scale.toNat) < overflow)

mutual

/-- Every string has a text and every number is in range, at any depth. -/
def Value.isExact : Value → Bool
  | .number n => n.inRange
  | .string text => text.isSome
  | .array items => exactItems items
  | .object members => exactMembers members
  | _ => true

def exactItems : List Value → Bool
  | [] => true
  | v :: vs => v.isExact && exactItems vs

def exactMembers : List (Option String × Value) → Bool
  | [] => true
  | (name, v) :: ms => name.isSome && v.isExact && exactMembers ms

end

/-! ## Records read from JSON

A record is read from an object with named fields or from an array with the fields in order.
Other names are ignored whatever their values are, but a field that is given twice, or a name
without a text, spoils the object. -/

/-- The fields of a record that were given, in the order of their names. -/
abbrev Given := List (Option Value)

/-- The value of the only member called `name`, if there is one; `none` when there are more. -/
def member? (name : String) (members : List (Option String × Value)) : Option (Option Value) :=
  match members.filter (·.1 == some name) with
  | [] => some none
  | [(_, v)] => some (some v)
  | _ => none

def Value.fields? (names : List String) : Value → Option Given
  | .object members =>
    if members.all (·.1.isSome) then names.mapM (member? · members) else none
  | .array items =>
    if items.length ≤ names.length then
      some (items.map some ++ List.replicate (names.length - items.length) none)
    else none
  | _ => none

/-- The name of a choice, written as a string or as the only member of an object with the
value `null`. -/
def Value.choice? : Value → Option String
  | .string text => text
  | .object [(name, .null)] => name
  | _ => none

end TreeShell.Json
