import TreeShell.Text.Basic

/-! # Options of the program

Arguments are read from left to right, and the first that is wrong, or that asks for the help or
the version, decides. An option with a value takes the rest of its own argument, after an equals
sign if it has one, or else the next argument unless that looks like an option. No option may
come twice and no argument may be left over. -/

namespace TreeShell.CommandLine

structure Options where
  command? : Option String := none
  cwd? : Option String := none
  tree? : Option String := none
  settingsDir? : Option String := none
  latency? : Option Nat := none
  suggest? : Option String := none
  json : Bool := false
  plain : Bool := false
  deriving DecidableEq, Repr

inductive UsageError where
  | unexpected (arg : String)
  | missingValue (option : String)
  | repeated (option : String)
  | invalidValue (option value : String)
  deriving DecidableEq, Repr

def UsageError.message : UsageError → String
  | unexpected arg => "error: unexpected argument '" ++ arg ++ "' found"
  | missingValue option => "error: a value is required for '" ++ option ++ "' but none was supplied"
  | repeated option => "error: the argument '" ++ option ++ "' cannot be used multiple times"
  | invalidValue option value => "error: invalid value '" ++ value ++ "' for '" ++ option ++ "'"

/-- What the arguments ask for. -/
inductive Request where
  | run (options : Options)
  | help
  | version
  deriving DecidableEq, Repr

/-- The options that take a value. -/
inductive Param where
  | command
  | cwd
  | tree
  | settingsDir
  | latency
  | suggest
  deriving DecidableEq, Repr

def Param.name : Param → String
  | command => "-c"
  | cwd => "--cwd"
  | tree => "--fs"
  | settingsDir => "--settings-dir"
  | latency => "--latency-ms"
  | suggest => "--suggest"

def Param.ofLong? : String → Option Param
  | "cwd" => some cwd
  | "fs" => some tree
  | "settings-dir" => some settingsDir
  | "latency-ms" => some latency
  | "suggest" => some suggest
  | _ => none

/-- A decimal number below `2 ^ 64`; a plus sign may stand before it. -/
def milliseconds? (value : String) : Option Nat :=
  let digits := match value.toList with
    | '+' :: cs => cs
    | cs => cs
  let n := digits.foldl (fun n c => 10 * n + (c.toNat - '0'.toNat)) 0
  if !digits.isEmpty && digits.all Char.isDigit && n < UInt64.size then some n else none

/-- Fills an option that has not been given yet. -/
def fill {α : Type} (param : Param) (old : Option α) (new : α) : Except UsageError (Option α) :=
  match old with
  | none => .ok (some new)
  | some _ => .error (.repeated param.name)

def nonempty (param : Param) (value : String) : Except UsageError String :=
  if value = "" then .error (.invalidValue param.name value) else .ok value

def Options.set (o : Options) (value : String) : Param → Except UsageError Options
  | .command => do return { o with command? := ← fill .command o.command? value }
  | .cwd => do return { o with cwd? := ← fill .cwd o.cwd? value }
  | .tree => do return { o with tree? := ← fill .tree o.tree? (← nonempty .tree value) }
  | .settingsDir => do
    return { o with
      settingsDir? := ← fill .settingsDir o.settingsDir? (← nonempty .settingsDir value) }
  | .latency =>
    match milliseconds? value with
    | none => .error (.invalidValue Param.latency.name value)
    | some ms => do return { o with latency? := ← fill .latency o.latency? ms }
  | .suggest => do return { o with suggest? := ← fill .suggest o.suggest? value }

/-- What one argument says, before its value is looked for in the next one. -/
inductive Arg where
  /-- The end of the options. -/
  | stop
  | param (p : Param) (value? : Option String)
  | json
  | plain
  | help
  | version
  | other

/-- The characters before and after the first equals sign. -/
def atEquals (cs : List Char) : String × Option String :=
  (String.ofList (cs.takeWhile (· != '=')),
    match cs.dropWhile (· != '=') with
    | [] => none
    | _ :: value => some (String.ofList value))

def Arg.ofLong (cs : List Char) : Arg :=
  match atEquals cs with
  | ("json", none) => .json
  | ("plain", none) => .plain
  | ("help", none) => .help
  | ("version", none) => .version
  | (name, value?) =>
    match Param.ofLong? name with
    | some p => .param p value?
    | none => .other

def Arg.ofString (arg : String) : Arg :=
  match arg.toList with
  | ['-', '-'] => .stop
  | '-' :: '-' :: cs => ofLong cs
  | ['-', 'c'] => .param .command none
  | '-' :: 'c' :: '=' :: value => .param .command (some (String.ofList value))
  | '-' :: 'c' :: value => .param .command (some (String.ofList value))
  | '-' :: 'h' :: _ => .help
  | '-' :: 'V' :: _ => .version
  | _ => .other

/-- A lone hyphen is a value, any other text that starts with one is not. -/
def isValue (arg : String) : Bool := arg == "-" || arg.toList.head? != some '-'

def Options.read (o : Options) : List String → Except UsageError Request
  | [] => .ok (.run o)
  | arg :: rest =>
    match Arg.ofString arg with
    | .other => .error (.unexpected arg)
    | .help => .ok .help
    | .version => .ok .version
    | .stop =>
      match rest with
      | [] => .ok (.run o)
      | next :: _ => .error (.unexpected next)
    | .json => if o.json then .error (.repeated arg) else { o with json := true }.read rest
    | .plain => if o.plain then .error (.repeated arg) else { o with plain := true }.read rest
    | .param p (some value) =>
      match o.set value p with
      | .error e => .error e
      | .ok o => o.read rest
    | .param p none =>
      match rest with
      | [] => .error (.missingValue p.name)
      | value :: rest =>
        if isValue value then
          match o.set value p with
          | .error e => .error e
          | .ok o => o.read rest
        else .error (.missingValue p.name)

end TreeShell.CommandLine
