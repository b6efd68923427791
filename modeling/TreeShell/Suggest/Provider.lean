import TreeShell.Json.Format
import TreeShell.Json.Value
import TreeShell.Shell.Interpret
import TreeShell.Text.Basic

/-! # Providers of suggestions

A provider answers a request, perhaps after a delay in milliseconds that may depend on the
request, and may fail. The local provider needs no service: it knows the names of commands and
takes from them and from the history what extends the input. -/

/-! ## Requests for suggestions

A request carries what the user has typed and the commands before it, most recent last; a
response carries suggested commands. Both travel as JSON. -/

namespace TreeShell.Suggest
open Json (Value Doc)

structure Request where
  input : String
  history : List String
  deriving DecidableEq, Repr

structure Response where
  suggestions : List String
  deriving DecidableEq, Repr

inductive SuggestError where
  | service (reason : String)
  | malformed
  deriving DecidableEq, Repr

def SuggestError.message : SuggestError → String
  | service reason => "suggestion service failed: " ++ reason
  | malformed => "malformed suggestion reply"

namespace Request

def doc (r : Request) : Doc :=
  .record [("userInput", .text r.input), ("commandHistory", .list (r.history.map .text))]

def toJson (r : Request) : String := r.doc.compact

/-- Both fields must be there. -/
def ofValue? (v : Value) : Option Request :=
  match v.fields? ["userInput", "commandHistory"] with
  | some [some input, some history] => do
    let input ← input.text?
    let history ← history.texts?
    return ⟨input, history⟩
  | _ => none

def ofJson? (text : String) : Option Request := (Json.parse text).bind ofValue?

end Request

namespace Response

def doc (r : Response) : Doc := .record [("suggestions", .list (r.suggestions.map .text))]

def toJson (r : Response) : String := r.doc.compact

/-- Without the field there are no suggestions. -/
def ofValue? (v : Value) : Option Response :=
  match v.fields? ["suggestions"] with
  | some [none] => some ⟨[]⟩
  | some [some list] => list.texts?.map (⟨·⟩)
  | _ => none

def ofJson? (text : String) : Option Response := (Json.parse text).bind ofValue?

end Response

/-! ## Talking to a text completion

A completion service gets a prompt in plain words and answers with a JSON array of strings or
a response record, perhaps in a fenced block of code: a line that starts with three backticks,
the lines of the block, and three backticks at the end. -/

def Request.prompt (r : Request) : String :=
  "You are a helpful terminal assistant. Your task is to suggest shell commands "
    ++ "to the user based on their current input and past command history.\n\n"
    ++ "Here's the user's current input:\n" ++ r.input
    ++ "\n\nHere's the user's command history:\n"
    ++ Text.join "" (r.history.map fun command => "- " ++ command ++ "\n")
    ++ "\nSuggest a list of commands that the user might want to execute next. "
    ++ "Be concise and only suggest relevant commands.\n\n"
    ++ "Your response should be a JSON array of strings."

def fence : List Char := "```".toList

/-- What stands in the fenced block that `cs` is, or all of `cs` if it starts with no fence.
The closing fence may be missing. -/
def unfenced (cs : List Char) : List Char :=
  match Text.after? fence cs with
  | none => cs
  | some opened =>
    let block := (opened.dropWhile (· != '\n')).drop 1
    let body := match Text.after? fence.reverse (Text.cutBlank block).reverse with
      | some reversed => reversed.reverse
      | none => block
    Text.cutBlank (Text.skipBlank body)

/-- The suggestions in the reply of a completion service. -/
def ofReply (reply : String) : Except SuggestError (List String) :=
  let body := String.ofList (unfenced (Text.cutBlank (Text.skipBlank reply.toList)))
  match (Json.parse body).bind Json.Value.texts? with
  | some suggestions => .ok suggestions
  | none =>
    match Response.ofJson? body with
    | some response => .ok response.suggestions
    | none => .error .malformed

/-! ## Providers -/

structure Provider where
  answer : Request → Except SuggestError (List String)
  delay : Request → Nat := fun _ => 0

namespace Provider

/-- The suggestions of the provider; a failure is no suggestions. -/
def suggestions (p : Provider) (r : Request) : List String := (p.answer r).toOption.getD []

/-- The elements of `xs` without those that stand in `seen` or further ahead in `xs`. -/
def firsts (seen : List String) : List String → List String
  | [] => []
  | x :: xs => if x ∈ seen then firsts seen xs else x :: firsts (x :: seen) xs

def maxLocal : Nat := 5

/-- Past commands, most recent first, and then known commands, if they extend the input. -/
def localAnswer (commands : List String) (r : Request) : List String :=
  let input := Text.trimStart r.input
  let completes (candidate : String) : Bool :=
    (Text.after? input.toList candidate.toList).isSome && candidate != input
  (firsts [] ((r.history.reverse ++ commands).filter completes)).take maxLocal

def ofCommands (commands : List String) : Provider where
  answer r := .ok (localAnswer commands r)

def builtin : Provider := ofCommands Registry.builtin.names

/-- A provider that sends a prompt to a completion service, which may fail with a reason. -/
def ofCompletion (complete : String → Except String String) : Provider where
  answer r :=
    match complete r.prompt with
    | .error reason => .error (.service reason)
    | .ok reply => ofReply reply

end Provider

end TreeShell.Suggest
