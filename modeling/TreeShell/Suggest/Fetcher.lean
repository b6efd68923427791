import TreeShell.Suggest.Provider

/-! # Fetching suggestions while the user types

Every schedule starts a task: after the debounce the task asks the provider, and when the
provider answers it publishes the suggestions. Only the task of the current generation asks and
publishes. A new schedule and a clear begin a new generation and also abort the task that the
fetcher owns; a task whose wait was given up is owned no longer and runs on until it finds that
its generation is over.

Time is counted in milliseconds. The tasks fire in the order in which they fall due, and the
log records what they did. -/

namespace TreeShell.Suggest

inductive Phase where
  | debouncing
  | asking
  deriving DecidableEq, Repr

/-- A task that has not ended: in its phase until the moment `due`. -/
structure Task where
  generation : Nat
  request : Request
  phase : Phase
  due : Nat
  deriving DecidableEq, Repr

inductive Event where
  | asked (generation : Nat) (request : Request)
  | published (generation : Nat) (suggestions : List String)
  | cleared
  deriving DecidableEq, Repr

structure Fetcher where
  provider : Provider
  debounce : Nat := 300
  now : Nat := 0
  generation : Nat := 0
  latest : List String := []
  /-- The generation of the task that the fetcher can still abort or wait for. -/
  owned : Option Nat := none
  tasks : List Task := []
  log : List Event := []

namespace Fetcher

/-- The requests that the provider has been asked. -/
def seen (f : Fetcher) : List Request :=
  f.log.filterMap fun
    | .asked _ request => some request
    | _ => none

def drop (generation : Nat) (tasks : List Task) : List Task :=
  tasks.filter (·.generation != generation)

def abort (f : Fetcher) : Fetcher :=
  match f.owned with
  | none => f
  | some g => { f with owned := none, tasks := drop g f.tasks }

/-- Aborts the task owned and begins a new generation. -/
def supersede (f : Fetcher) : Fetcher := { f.abort with generation := f.generation + 1 }

def schedule (request : Request) (f : Fetcher) : Fetcher :=
  let f := f.supersede
  { f with
    owned := some f.generation
    tasks := f.tasks ++ [⟨f.generation, request, .debouncing, f.now + f.debounce⟩] }

def clear (f : Fetcher) : Fetcher :=
  { f.supersede with latest := [], log := f.log ++ [.cleared] }

/-- An input with fewer than two characters, trimmed, is not worth a question. -/
def isWorthAsking (input : String) : Bool := 2 ≤ (Text.trim input).length

def publish (generation : Nat) (suggestions : List String) (f : Fetcher) : Fetcher :=
  if generation = f.generation then
    { f with latest := suggestions, log := f.log ++ [.published generation suggestions] }
  else f

/-- The moment `t.due` comes: a debounced task of the current generation asks, or publishes that
there is nothing to ask for; an asking task publishes its answer. -/
def fire (t : Task) (f : Fetcher) : Fetcher :=
  let f := { f with now := t.due, tasks := drop t.generation f.tasks }
  match t.phase with
  | .asking => f.publish t.generation (f.provider.suggestions t.request)
  | .debouncing =>
    if t.generation ≠ f.generation then f
    else if isWorthAsking t.request.input then
      { f with
        tasks := f.tasks ++ [{ t with phase := .asking, due := t.due + f.provider.delay t.request }]
        log := f.log ++ [.asked t.generation t.request] }
    else f.publish t.generation []

/-- The task that falls due first. -/
def earliest : List Task → Option Task
  | [] => none
  | t :: ts =>
    match earliest ts with
    | some u => if u.due < t.due then some u else some t
    | none => some t

def isLive (f : Fetcher) (generation : Nat) : Bool :=
  f.tasks.any (·.generation == generation)

/-- Fires tasks in order as long as the task `waiting` has not ended and the next one falls due
by `limit`. Without a task to wait for, or without a limit, that condition holds. -/
def run (waiting limit : Option Nat) : Nat → Fetcher → Fetcher
  | 0, f => f
  | steps + 1, f =>
    if waiting.all f.isLive then
      match earliest f.tasks with
      | some t => if limit.all (t.due ≤ ·) then run waiting limit steps (f.fire t) else f
      | none => f
    else f

/-- Every task fires twice at most. -/
def work (f : Fetcher) : Nat := 2 * f.tasks.length

/-- Lets `ms` milliseconds pass. -/
def advance (ms : Nat) (f : Fetcher) : Fetcher :=
  { run none (some (f.now + ms)) f.work f with now := f.now + ms }

/-- Waits until the task owned has ended. -/
def settle (f : Fetcher) : Fetcher :=
  match f.owned with
  | none => f
  | some g => { run (some g) none f.work f with owned := none }

/-- Waits like `settle`, but `ms` milliseconds at most; says whether that was enough. If not, the
task is owned no longer. -/
def settleWithin (ms : Nat) (f : Fetcher) : Bool × Fetcher :=
  match f.owned with
  | none => (true, f)
  | some g =>
    let after := run (some g) (some (f.now + ms)) f.work f
    if after.isLive g then (false, { after with owned := none, now := f.now + ms })
    else (true, { after with owned := none })

/-- What can be done with a fetcher. -/
inductive Step where
  | schedule (request : Request)
  | advance (ms : Nat)
  | settle
  | settleWithin (ms : Nat)
  | clear

inductive Reply where
  | nothing
  | generation (n : Nat)
  | inTime (b : Bool)

def perform (f : Fetcher) : Step → Reply × Fetcher
  | .schedule request => let f := f.schedule request; (.generation f.generation, f)
  | .advance ms => (.nothing, f.advance ms)
  | .settle => (.nothing, f.settle)
  | .settleWithin ms => let (inTime, f) := f.settleWithin ms; (.inTime inTime, f)
  | .clear => (.nothing, f.clear)

/-- The fetcher after a list of steps. -/
def performAll (f : Fetcher) (steps : List Step) : Fetcher :=
  steps.foldl (fun f step => (f.perform step).2) f

/-- A fetcher that nobody holds any more has aborted the task it owned. -/
def release (f : Fetcher) : Fetcher := f.abort

end Fetcher

end TreeShell.Suggest
