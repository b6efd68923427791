import TreeShell.Suggest.Fetcher

/-! # The moves of a fetcher

What happens to a fetcher is broken into moves: a call that begins a generation, a task that
comes due, the loss of the task it owns, time that passes, and a provider that from then on
answers in another way. Any task that has not ended may come due next, in whatever order the
delays of a provider put them. A run of steps is a sequence of such moves, so what holds along
every sequence of moves holds along every run. -/

namespace TreeShell.Suggest.Fetcher

inductive Move where
  | schedule (request : Request)
  | clear
  | fire (task : Task)
  | disown
  | pass (moment : Nat)
  | change (provider : Provider)

def move (f : Fetcher) : Move → Fetcher
  | .schedule request => f.schedule request
  | .clear => f.clear
  | .fire task => f.fire task
  | .disown => { f with owned := none }
  | .pass moment => { f with now := moment }
  | .change provider => { f with provider }

def moveAll (f : Fetcher) (moves : List Move) : Fetcher := moves.foldl move f

/-- Only a task that has not ended can come due. -/
def Allows (f : Fetcher) : Move → Prop
  | .fire task => task ∈ f.tasks
  | _ => True

/-- The moves can be made one after the other. -/
def Admits (f : Fetcher) : List Move → Prop
  | [] => True
  | m :: moves => f.Allows m ∧ (f.move m).Admits moves

@[simp] theorem moveAll_nil (f : Fetcher) : f.moveAll [] = f := rfl

@[simp] theorem moveAll_cons (f : Fetcher) (m : Move) (moves : List Move) :
    f.moveAll (m :: moves) = (f.move m).moveAll moves := rfl

@[simp] theorem moveAll_append (f : Fetcher) (before after : List Move) :
    f.moveAll (before ++ after) = (f.moveAll before).moveAll after := by
  simp [moveAll]

@[simp] theorem admits_append (f : Fetcher) (before after : List Move) :
    f.Admits (before ++ after) ↔ f.Admits before ∧ (f.moveAll before).Admits after := by
  induction before generalizing f with
  | nil => simp [Admits]
  | cons m before ih => simp [Admits, ih, and_assoc]

/-- What each of the moves keeps holds after all of them. -/
theorem moveAll_induction {P : Fetcher → Prop} {Q : Move → Prop}
    (hmove : ∀ f m, P f → f.Allows m → Q m → P (f.move m)) {f : Fetcher} {moves : List Move}
    (hf : P f) (hadm : f.Admits moves) (hall : ∀ m ∈ moves, Q m) : P (f.moveAll moves) := by
  induction moves generalizing f with
  | nil => exact hf
  | cons m moves ih =>
    obtain ⟨hm, hrest⟩ := List.forall_mem_cons.1 hall
    exact ih (hmove f m hf hadm.1 hm) hadm.2 hrest

/-! ## Calls -/

/-- The steps that begin a generation. -/
def Step.begins : Step → Bool
  | .schedule _ => true
  | .clear => true
  | _ => false

/-- The step that a move is the whole of. -/
def Move.step? : Move → Option Step
  | .schedule request => some (.schedule request)
  | .clear => some .clear
  | _ => none

def Move.begins (m : Move) : Bool := m.step?.isSome

/-- The moves of a step that waits: no generation begins and the provider stays the one it is. -/
def Move.isQuiet : Move → Bool
  | .fire _ => true
  | .disown => true
  | .pass _ => true
  | _ => false

theorem Move.begins_of_isQuiet {m : Move} (h : m.isQuiet = true) : m.begins = false := by
  cases m with
  | schedule request => cases h
  | clear => cases h
  | _ => rfl

/-! ## What a task does when it comes due -/

/-- What a task publishes when it comes due in its phase. -/
def found (f : Fetcher) (t : Task) : List String :=
  match t.phase with
  | .debouncing => []
  | .asking => f.provider.suggestions t.request

/-- The task has waited long enough and its input is worth a question. -/
def Task.IsReady (t : Task) : Prop := t.phase = .debouncing ∧ isWorthAsking t.request.input = true

/-- A task of an old generation ends and nothing else happens; the task of the current one asks,
or ends and publishes. -/
theorem fire_cases (f : Fetcher) (t : Task) :
    (t.generation ≠ f.generation ∧
      f.fire t = { f with now := t.due, tasks := drop t.generation f.tasks }) ∨
    (t.generation = f.generation ∧ Task.IsReady t ∧ f.fire t = { f with
      now := t.due
      tasks := drop t.generation f.tasks ++
        [{ t with phase := .asking, due := t.due + f.provider.delay t.request }]
      log := f.log ++ [.asked t.generation t.request] }) ∨
    (t.generation = f.generation ∧ ¬ Task.IsReady t ∧ f.fire t = { f with
      now := t.due
      tasks := drop t.generation f.tasks
      latest := f.found t
      log := f.log ++ [.published t.generation (f.found t)] }) := by
  obtain ⟨generation, request, phase, due⟩ := t
  by_cases hg : generation = f.generation
  · right
    cases phase with
    | asking => exact Or.inr ⟨hg, by simp [Task.IsReady], by simp [fire, publish, found, hg]⟩
    | debouncing =>
      by_cases hw : isWorthAsking request.input = true
      · exact Or.inl ⟨hg, ⟨rfl, hw⟩, by simp [fire, hg, hw]⟩
      · exact Or.inr ⟨hg, by simp [Task.IsReady, hw], by simp [fire, publish, found, hg, hw]⟩
  · left
    cases phase <;> simp [fire, publish, hg]

theorem mem_drop {g : Nat} {tasks : List Task} {t : Task} :
    t ∈ drop g tasks ↔ t ∈ tasks ∧ t.generation ≠ g := by
  simp [drop]

theorem mem_of_mem_abort {f : Fetcher} {t : Task} (h : t ∈ f.abort.tasks) : t ∈ f.tasks := by
  unfold abort at h
  split at h
  · exact h
  · exact (mem_drop.1 h).1

theorem abort_log (f : Fetcher) : f.abort.log = f.log := by
  unfold abort; split <;> rfl

theorem abort_latest (f : Fetcher) : f.abort.latest = f.latest := by
  unfold abort; split <;> rfl

theorem earliest_mem {tasks : List Task} {t : Task} (h : earliest tasks = some t) : t ∈ tasks := by
  induction tasks generalizing t with
  | nil => simp [earliest] at h
  | cons u tasks ih =>
    simp only [earliest] at h
    split at h
    · rename_i v hv
      split at h
      · obtain rfl := Option.some.inj h
        exact List.mem_cons_of_mem _ (ih hv)
      · obtain rfl := Option.some.inj h
        exact List.mem_cons_self
    · obtain rfl := Option.some.inj h
      exact List.mem_cons_self

/-! ## Runs are moves -/

/-- The loop does nothing but let tasks come due. -/
theorem run_moves (waiting limit : Option Nat) (steps : Nat) (f : Fetcher) :
    ∃ fired : List Task, f.Admits (fired.map .fire) ∧
      run waiting limit steps f = f.moveAll (fired.map .fire) := by
  induction steps generalizing f with
  | zero => exact ⟨[], trivial, rfl⟩
  | succ steps ih =>
    unfold run
    split
    · split
      · rename_i t ht
        split
        · obtain ⟨fired, hadm, hrun⟩ := ih (f.fire t)
          exact ⟨t :: fired, ⟨earliest_mem ht, hadm⟩, hrun⟩
        · exact ⟨[], trivial, rfl⟩
      · exact ⟨[], trivial, rfl⟩
    · exact ⟨[], trivial, rfl⟩

/-- A step is a sequence of moves, in which a call stays the call it is. -/
theorem perform_moves (f : Fetcher) (step : Step) :
    ∃ moves, f.Admits moves ∧ moves.filterMap Move.step? = [step].filter Step.begins ∧
      (step.begins = false → ∀ m ∈ moves, m.isQuiet = true) ∧
      (f.perform step).2 = f.moveAll moves := by
  cases step with
  | schedule request => exact ⟨[.schedule request], ⟨trivial, trivial⟩, rfl, nofun, rfl⟩
  | clear => exact ⟨[.clear], ⟨trivial, trivial⟩, rfl, nofun, rfl⟩
  | advance ms =>
    obtain ⟨fired, hadm, hrun⟩ := run_moves none (some (f.now + ms)) f.work f
    refine ⟨fired.map .fire ++ [.pass (f.now + ms)], ?_, ?_, ?_, ?_⟩
    · simp [hadm, Admits, Allows]
    · simp [Move.step?, Step.begins]
    · simp [Move.isQuiet, or_imp, forall_and]
    · simp [perform, advance, hrun, move]
  | settle =>
    simp only [perform, settle]
    split
    · exact ⟨[], trivial, rfl, by simp, rfl⟩
    · rename_i g _
      obtain ⟨fired, hadm, hrun⟩ := run_moves (some g) none f.work f
      refine ⟨fired.map .fire ++ [.disown], ?_, ?_, ?_, ?_⟩
      · simp [hadm, Admits, Allows]
      · simp [Move.step?, Step.begins]
      · simp [Move.isQuiet, or_imp, forall_and]
      · simp [hrun, move]
  | settleWithin ms =>
    simp only [perform, settleWithin]
    split
    · exact ⟨[], trivial, rfl, by simp, rfl⟩
    · rename_i g _
      obtain ⟨fired, hadm, hrun⟩ := run_moves (some g) (some (f.now + ms)) f.work f
      split
      · refine ⟨fired.map .fire ++ [.disown, .pass (f.now + ms)], ?_, ?_, ?_, ?_⟩
        · simp [hadm, Admits, Allows]
        · simp [Move.step?, Step.begins]
        · simp [Move.isQuiet, or_imp, forall_and]
        · simp [hrun, move]
      · refine ⟨fired.map .fire ++ [.disown], ?_, ?_, ?_, ?_⟩
        · simp [hadm, Admits, Allows]
        · simp [Move.step?, Step.begins]
        · simp [Move.isQuiet, or_imp, forall_and]
        · simp [hrun, move]

/-- A list of steps is a sequence of moves, all of them quiet if no step begins a generation. -/
theorem performAll_moves (f : Fetcher) (steps : List Step) :
    ∃ moves, f.Admits moves ∧
      ((∀ step ∈ steps, step.begins = false) → ∀ m ∈ moves, m.isQuiet = true) ∧
      f.performAll steps = f.moveAll moves := by
  induction steps generalizing f with
  | nil => exact ⟨[], trivial, by simp, rfl⟩
  | cons step steps ih =>
    obtain ⟨first, hfirst, -, hquiet, hstep⟩ := f.perform_moves step
    obtain ⟨moves, hadm, hmoves, hrest⟩ := ih (f.perform step).2
    refine ⟨first ++ moves, ?_, fun hsteps m hm => ?_, ?_⟩
    · rw [admits_append, ← hstep]
      exact ⟨hfirst, hadm⟩
    · obtain ⟨hone, hall⟩ := List.forall_mem_cons.1 hsteps
      exact (List.mem_append.1 hm).elim (hquiet hone m) (hmoves hall m)
    · rw [moveAll_append, ← hstep]
      exact hrest

/-- The moves of a run, piece by piece: each piece makes the calls of one step, and between the
pieces the fetcher is what the steps so far have made of it. -/
structure Plays (f : Fetcher) (steps : List Step) (pieces : List (List Move)) : Prop where
  admitted : f.Admits pieces.flatten
  calls : pieces.map (·.filterMap Move.step?) = steps.map ([·].filter Step.begins)
  states : ∀ k, f.performAll (steps.take k) = f.moveAll (pieces.take k).flatten

theorem exists_plays (f : Fetcher) (steps : List Step) : ∃ pieces, f.Plays steps pieces := by
  induction steps generalizing f with
  | nil => exact ⟨[], trivial, rfl, fun k => by simp [performAll]⟩
  | cons step steps ih =>
    obtain ⟨moves, hadm, hcalls, -, hstep⟩ := f.perform_moves step
    obtain ⟨pieces, h⟩ := ih (f.perform step).2
    refine ⟨moves :: pieces, ?_, ?_, fun k => ?_⟩
    · rw [List.flatten_cons, admits_append, ← hstep]
      exact ⟨hadm, h.admitted⟩
    · rw [List.map_cons, List.map_cons, hcalls, h.calls]
    · cases k with
      | zero => rfl
      | succ k =>
        rw [List.take_succ_cons, List.take_succ_cons, List.flatten_cons, moveAll_append, ← hstep]
        exact h.states k

end TreeShell.Suggest.Fetcher
