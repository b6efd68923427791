import TreeShell.Proofs.Suggest.Waiting

/-! # What the provider is asked

The provider is asked for a request exactly when its input is worth a question and its debounce
timer comes due before another generation begins, whether the task was owned until then or lost in
a wait that was given up. A generation asks once at most, for the request it was begun with, and
generations ask in their order. On the clock of a run this says when a step that waits has to ask. -/

namespace TreeShell.Suggest

/-- The question that an event is, with the generation that asks it. -/
def Event.question? : Event → Option (Nat × Request)
  | .asked generation request => some (generation, request)
  | _ => none

/-- The questions among the events, in their order. -/
def questions (events : List Event) : List (Nat × Request) := events.filterMap Event.question?

/-- The generations that ask, in the order of the events. -/
def askers (events : List Event) : List Nat := (questions events).map Prod.fst

theorem questions_append (before after : List Event) :
    questions (before ++ after) = questions before ++ questions after :=
  List.filterMap_append

theorem askers_append (before after : List Event) :
    askers (before ++ after) = askers before ++ askers after := by
  rw [askers, questions_append, List.map_append]
  rfl

theorem mem_questions {events : List Event} {n : Nat} {request : Request} :
    (n, request) ∈ questions events ↔ .asked n request ∈ events := by
  rw [questions, List.mem_filterMap]
  constructor
  · rintro ⟨e, he, hn⟩
    cases e with
    | asked k r =>
      obtain ⟨rfl, rfl⟩ := Prod.mk.inj (Option.some.inj hn)
      exact he
    | published k suggestions => cases hn
    | cleared => cases hn
  · exact fun he => ⟨_, he, rfl⟩

theorem mem_askers {events : List Event} {n : Nat} :
    n ∈ askers events ↔ ∃ request, .asked n request ∈ events := by
  simp [askers, mem_questions]

namespace Fetcher

variable {f : Fetcher} {m : Move} {moves : List Move} {n : Nat} {request : Request}

/-! ## Events of one move and of many -/

theorem mem_gains_iff {e : Event} : e ∈ f.gains moves ↔
    ∃ before m after, moves = before ++ m :: after ∧ e ∈ (f.moveAll before).gains [m] := by
  induction moves generalizing f with
  | nil => simp [gains]
  | cons m moves ih =>
    rw [gains_cons, List.mem_append, ih]
    constructor
    · rintro (he | ⟨before, k, after, rfl, he⟩)
      · exact ⟨[], m, moves, rfl, he⟩
      · exact ⟨m :: before, k, after, rfl, he⟩
    · rintro ⟨before, k, after, hmoves, he⟩
      cases before with
      | nil =>
        obtain ⟨rfl, rfl⟩ := List.cons.inj hmoves
        exact Or.inl he
      | cons b before =>
        obtain ⟨rfl, rfl⟩ := List.cons.inj hmoves
        exact Or.inr ⟨before, k, after, rfl, he⟩

/-- Only a task of the current generation asks, when it is ready, and it asks for its request. -/
theorem asked_mem_gains_singleton : .asked n request ∈ f.gains [m] ↔
    ∃ t, m = .fire t ∧ t.generation = f.generation ∧ Task.IsReady t ∧
      t.generation = n ∧ t.request = request := by
  simp only [gains, List.append_nil]
  cases m with
  | fire t =>
    rcases f.fire_cases t with ⟨hstale, h⟩ | ⟨hg, hready, h⟩ | ⟨hg, hready, h⟩
    · simp [move, h, hstale]
    · simp [move, h, hg, hready, eq_comm]
    · simp [move, h, hready]
  | schedule request => simp [move, schedule, supersede, abort_log]
  | clear => simp [move, clear]
  | disown => simp [move]
  | pass moment => simp [move]
  | change provider => simp [move]

theorem asked_mem_gains : .asked n request ∈ f.gains moves ↔
    ∃ before t after, moves = before ++ .fire t :: after ∧
      t.generation = (f.moveAll before).generation ∧ Task.IsReady t ∧
      t.generation = n ∧ t.request = request := by
  rw [mem_gains_iff]
  constructor
  · rintro ⟨before, m, after, rfl, he⟩
    obtain ⟨t, rfl, ht⟩ := asked_mem_gains_singleton.1 he
    exact ⟨before, t, after, rfl, ht⟩
  · rintro ⟨before, t, after, rfl, ht⟩
    exact ⟨before, .fire t, after, rfl, asked_mem_gains_singleton.2 ⟨t, rfl, ht⟩⟩

theorem generation_le_of_asked (h : .asked n request ∈ f.gains moves) :
    f.generation ≤ n ∧ n ≤ (f.moveAll moves).generation := by
  obtain ⟨before, t, after, rfl, hg, -, rfl, -⟩ := asked_mem_gains.1 h
  rw [hg]
  constructor
  · exact f.generation_le_moveAll before
  · rw [moveAll_append]
    exact generation_le_moveAll _ _

/-! ## Every question is the question of a schedule -/

/-- The fetcher has a task for `request` of the generation `n`, or has asked for it. -/
def Knows (f : Fetcher) (n : Nat) (request : Request) : Prop :=
  (∃ t ∈ f.tasks, t.generation = n ∧ t.request = request) ∨ .asked n request ∈ f.log

theorem Knows.of_move (hm : f.Allows m) (h : (f.move m).Knows n request) :
    f.Knows n request ∨ m = .schedule request ∧ n = f.generation + 1 := by
  rcases h with ⟨u, hu, rfl, rfl⟩ | h
  · rcases mem_move_tasks hm hu with ⟨t, ht, hg, hr, -⟩ | ⟨hm, hg⟩
    · exact Or.inl (Or.inl ⟨t, ht, hg, hr⟩)
    · exact Or.inr ⟨hm, hg⟩
  · rw [log_move hm, List.mem_append] at h
    rcases h with h | h
    · exact Or.inl (Or.inr h)
    · obtain ⟨t, rfl, -, -, hn, hr⟩ := asked_mem_gains_singleton.1 h
      exact Or.inl (Or.inl ⟨t, hm, hn, hr⟩)

theorem Knows.of_moveAll (hadm : f.Admits moves) (h : (f.moveAll moves).Knows n request) :
    f.Knows n request ∨ ∃ before after, moves = before ++ .schedule request :: after ∧
      n = (f.moveAll before).generation + 1 := by
  induction moves generalizing f with
  | nil => exact Or.inl h
  | cons m moves ih =>
    rcases ih hadm.2 h with h | ⟨before, after, rfl, hn⟩
    · rcases h.of_move hadm.1 with h | ⟨rfl, hn⟩
      · exact Or.inl h
      · exact Or.inr ⟨[], moves, rfl, hn⟩
    · exact Or.inr ⟨m :: before, after, rfl, hn⟩

theorem Knows.of_quiet (hadm : f.Admits moves) (hquiet : ∀ m ∈ moves, m.begins = false)
    (h : (f.moveAll moves).Knows n request) : f.Knows n request := by
  rcases h.of_moveAll hadm with h | ⟨before, after, rfl, -⟩
  · exact h
  · cases hquiet (.schedule request) (by simp)

theorem Knows.of_perform {step : Step} (h : (f.perform step).2.Knows n request) :
    f.Knows n request ∨ step = .schedule request ∧ n = f.generation + 1 := by
  cases hstep : step.begins with
  | false =>
    obtain ⟨moves, hadm, -, hquiet, hmoves⟩ := f.perform_moves step
    rw [hmoves] at h
    exact Or.inl (h.of_quiet hadm fun m hm => Move.begins_of_isQuiet (hquiet hstep m hm))
  | true =>
    cases step with
    | schedule r =>
      rcases Knows.of_move (m := .schedule r) trivial h with h | ⟨hr, hn⟩
      · exact Or.inl h
      · exact Or.inr ⟨by rw [Move.schedule.inj hr], hn⟩
    | clear =>
      rcases Knows.of_move (m := .clear) trivial h with h | ⟨hr, -⟩
      · exact Or.inl h
      · cases hr
    | _ => cases hstep

theorem Knows.of_performAll {steps : List Step} (h : (f.performAll steps).Knows n request) :
    f.Knows n request ∨ ∃ before after, steps = before ++ .schedule request :: after ∧
      n = (f.performAll before).generation + 1 := by
  induction steps generalizing f with
  | nil => exact Or.inl h
  | cons step steps ih =>
    rcases ih h with h | ⟨before, after, rfl, hn⟩
    · rcases h.of_perform with h | ⟨rfl, hn⟩
      · exact Or.inl h
      · exact Or.inr ⟨[], steps, rfl, hn⟩
    · exact Or.inr ⟨step :: before, after, rfl, hn⟩

/-! ## Each generation asks once -/

/-- No generation has asked twice, and a task that is still debouncing has not asked. -/
structure AsksOnce (f : Fetcher) : Prop where
  counted : ∀ n ∈ askers f.log, n ≤ f.generation
  unasked : ∀ t ∈ f.tasks, t.phase = .debouncing → t.generation ∉ askers f.log
  increasing : (askers f.log).Pairwise (· < ·)
  worth : ∀ n request, .asked n request ∈ f.log → isWorthAsking request.input = true

theorem mem_askers_move (hm : f.Allows m) :
    n ∈ askers (f.move m).log ↔ n ∈ askers f.log ∨ n ∈ askers (f.gains [m]) := by
  rw [log_move hm, askers_append, List.mem_append]

/-- A task that comes due is debouncing no longer. -/
theorem generation_ne_of_mem_fire {t u : Task} (hu : u ∈ (f.fire t).tasks)
    (hphase : u.phase = .debouncing) : u.generation ≠ t.generation := by
  rcases f.fire_cases t with ⟨-, h⟩ | ⟨-, -, h⟩ | ⟨-, -, h⟩
  · rw [h] at hu
    exact (mem_drop.1 hu).2
  · rw [h] at hu
    rcases List.mem_append.1 hu with hu | hu
    · exact (mem_drop.1 hu).2
    · rw [List.mem_singleton.1 hu] at hphase
      cases hphase
  · rw [h] at hu
    exact (mem_drop.1 hu).2

theorem AsksOnce.unasked_move (hf : f.AsksOnce) (hm : f.Allows m) {u : Task}
    (hu : u ∈ (f.move m).tasks) (hphase : u.phase = .debouncing) :
    u.generation ∉ askers (f.move m).log := by
  rw [mem_askers_move hm, not_or]
  constructor
  · rcases mem_move_tasks hm hu with ⟨t, ht, -, -, htu⟩ | ⟨-, hg⟩
    · exact htu hphase ▸ hf.unasked t ht (htu hphase ▸ hphase)
    · intro hn
      have := hf.counted _ hn
      omega
  · intro hn
    obtain ⟨request, he⟩ := mem_askers.1 hn
    obtain ⟨t, rfl, -, -, ht, -⟩ := asked_mem_gains_singleton.1 he
    exact generation_ne_of_mem_fire hu hphase ht.symm

theorem AsksOnce.increasing_move (hf : f.AsksOnce) (hm : f.Allows m) :
    (askers (f.move m).log).Pairwise (· < ·) := by
  have hone : askers (f.gains [m]) = [] ∨ ∃ k, askers (f.gains [m]) = [k] := by
    rcases move_cases hm with ⟨-, h | ⟨k, r, h⟩⟩ | ⟨-, -, h⟩ | ⟨t, -, -, -, -, h, -⟩ <;>
      simp [gains, h, askers, questions, List.filterMap_cons, Event.question?]
  rw [log_move hm, askers_append]
  rcases hone with h | ⟨k, h⟩
  · rw [h, List.append_nil]
    exact hf.increasing
  · obtain ⟨request, he⟩ := mem_askers.1 (h ▸ List.mem_singleton_self k)
    obtain ⟨t, rfl, hg, hready, rfl, -⟩ := asked_mem_gains_singleton.1 he
    -- The generation that asks is the current one, and its task was there and had not asked.
    rw [h]
    exact increasing_concat hf.increasing (hg ▸ hf.counted) (hf.unasked t hm hready.1)

theorem AsksOnce.move (hf : f.AsksOnce) (hm : f.Allows m) : (f.move m).AsksOnce where
  counted n hn := by
    rcases (mem_askers_move hm).1 hn with hn | hn
    · exact Nat.le_trans (hf.counted n hn) (f.generation_le_move m)
    · obtain ⟨request, he⟩ := mem_askers.1 hn
      exact (generation_le_of_asked he).2
  unasked _ hu hphase := hf.unasked_move hm hu hphase
  increasing := hf.increasing_move hm
  worth n request h := by
    rw [log_move hm, List.mem_append] at h
    rcases h with h | h
    · exact hf.worth n request h
    · obtain ⟨t, -, -, hready, -, rfl⟩ := asked_mem_gains_singleton.1 h
      exact hready.2

theorem AsksOnce.moveAll (hf : f.AsksOnce) (hadm : f.Admits moves) :
    (f.moveAll moves).AsksOnce :=
  moveAll_induction (fun _ _ hg hm _ => hg.move hm) hf hadm fun _ _ => trivial

theorem AsksOnce.performAll (hf : f.AsksOnce) (steps : List Step) :
    (f.performAll steps).AsksOnce := by
  obtain ⟨moves, hadm, -, hmoves⟩ := f.performAll_moves steps
  exact hmoves ▸ hf.moveAll hadm

theorem asksOnce_fresh (provider : Provider) (debounce : Nat) :
    AsksOnce { provider, debounce } where
  counted := nofun
  unasked := nofun
  increasing := List.Pairwise.nil
  worth := nofun

/-! ## Questions along moves -/

/-- What the current generation has been begun for. -/
theorem Knows.of_schedule (hf : f.Ordered) (ha : f.AsksOnce) {r : Request}
    (h : (f.schedule r).Knows (f.generation + 1) request) : request = r := by
  rcases Knows.of_move (m := .schedule r) trivial h with (⟨t, ht, hg, -⟩ | he) | ⟨hr, -⟩
  · have := hf.begun t ht
    omega
  · have := ha.counted _ (mem_askers.2 ⟨_, he⟩)
    omega
  · exact (Move.schedule.inj hr).symm

/-- Along the moves the provider is asked for the right requests. -/
structure AsksRightly (f : Fetcher) (moves : List Move) : Prop where
  /-- The request of a schedule is passed on if it is worth a question and its debounce timer
  comes due before another generation begins, and only then. -/
  asked_iff : ∀ before request after, moves = before ++ .schedule request :: after →
    let n := (f.moveAll before).generation + 1
    .asked n request ∈ f.gains moves ↔ isWorthAsking request.input = true ∧
      ∃ waited t rest, after = waited ++ .fire t :: rest ∧ (∀ m ∈ waited, m.begins = false) ∧
        t.generation = n ∧ t.phase = .debouncing
  /-- What is passed on is the request of a schedule, as it was scheduled. -/
  own : ∀ n request, .asked n request ∈ f.gains moves → ∃ before after,
    moves = before ++ .schedule request :: after ∧ n = (f.moveAll before).generation + 1
  in_order : (askers (f.gains moves)).Pairwise (· < ·)
  /-- A call that begins a generation aborts the task owned, which never comes due again. -/
  aborted : ∀ before m after, moves = before ++ m :: after → m.begins = true →
    ∀ t ∈ (f.moveAll before).tasks, (f.moveAll before).owned = some t.generation →
      ∀ u, .fire u ∈ after → u.generation ≠ t.generation
  /-- A task that was lost comes due all the same, but nothing comes of it any more. -/
  lost : ∀ before t after, moves = before ++ .fire t :: after →
    t.generation ≠ (f.moveAll before).generation → (f.moveAll before).gains [.fire t] = []

theorem mem_abort_tasks (hn : f.owned = some n) {t : Task} :
    t ∈ f.abort.tasks ↔ t ∈ f.tasks ∧ t.generation ≠ n := by
  simp only [abort, hn, mem_drop]

theorem generation_ne_of_begins (hm : m.begins = true) (hn : n ≤ f.generation)
    (howned : f.owned = some n) : ∀ t ∈ (f.move m).tasks, t.generation ≠ n := by
  intro t ht
  cases m with
  | schedule request =>
    rw [move, schedule_tasks] at ht
    rcases List.mem_append.1 ht with ht | ht
    · exact ((mem_abort_tasks howned).1 ht).2
    · rw [List.mem_singleton.1 ht]
      change f.generation + 1 ≠ n
      omega
  | clear => exact ((mem_abort_tasks howned).1 ht).2
  | _ => cases hm

theorem asked_iff_of_schedule (hf : f.Ordered) (ha : f.AsksOnce) {after : List Move}
    (hadm : (f.schedule request).Admits after) :
    .asked (f.generation + 1) request ∈ (f.schedule request).gains after ↔
      isWorthAsking request.input = true ∧
        ∃ waited t rest, after = waited ++ .fire t :: rest ∧ (∀ m ∈ waited, m.begins = false) ∧
          t.generation = f.generation + 1 ∧ t.phase = .debouncing := by
  rw [asked_mem_gains]
  constructor
  · rintro ⟨waited, t, rest, rfl, hg, hready, hn, rfl⟩
    refine ⟨hready.2, waited, t, rest, rfl, ?_, hn, hready.1⟩
    exact generation_moveAll_eq_iff.1 (hg.symm.trans hn)
  · rintro ⟨hworth, waited, t, rest, rfl, hwaited, hn, hphase⟩
    obtain ⟨hadm, ht, -⟩ := by simpa only [admits_append] using hadm
    have hknows : (f.schedule request).Knows (f.generation + 1) t.request :=
      Knows.of_quiet hadm hwaited (Or.inl ⟨t, ht, hn, rfl⟩)
    have hrequest := hknows.of_schedule hf ha
    refine ⟨waited, t, rest, rfl, ?_, ⟨hphase, by rw [hrequest]; exact hworth⟩, hn, hrequest⟩
    rw [generation_moveAll_eq_iff.2 hwaited]
    exact hn

theorem asksRightly (hf : f.Ordered) (ha : f.AsksOnce) (hnew : ∀ n request, ¬ f.Knows n request)
    (hadm : f.Admits moves) : f.AsksRightly moves where
  asked_iff := by
    rintro before request after rfl
    obtain ⟨hbefore, -, hafter⟩ := by simpa only [admits_append] using hadm
    intro n
    refine Iff.trans ?_ (asked_iff_of_schedule (hf.moveAll hbefore) (ha.moveAll hbefore) hafter)
    rw [gains_append, gains_cons, List.mem_append, List.mem_append]
    -- Nothing asks for a generation before it has begun.
    have hearly : .asked n request ∉ f.gains before := fun h => by
      have := (generation_le_of_asked h).2
      omega
    have hcall : .asked n request ∉ (f.moveAll before).gains [.schedule request] := fun h => by
      obtain ⟨t, ht, -⟩ := asked_mem_gains_singleton.1 h
      cases ht
    constructor
    · rintro (h | h | h)
      · exact absurd h hearly
      · exact absurd h hcall
      · exact h
    · exact fun h => Or.inr (Or.inr h)
  own n request h := by
    have hknows : (f.moveAll moves).Knows n request := Or.inr (log_moveAll hadm ▸
      List.mem_append_right _ h)
    exact (hknows.of_moveAll hadm).resolve_left (hnew n request)
  in_order := by
    have hall := (ha.moveAll hadm).increasing
    rw [log_moveAll hadm, askers_append] at hall
    exact (List.pairwise_append.1 hall).2.1
  aborted := by
    rintro before m after rfl hm t ht howned u hu
    obtain ⟨waited, rest, rfl⟩ := List.append_of_mem hu
    obtain ⟨hbefore, -, hafter⟩ := (f.admits_append _ _).1 hadm
    obtain ⟨hwaited, hdue, -⟩ := (admits_append _ _ _).1 hafter
    have hbegun := (hf.moveAll hbefore).begun t ht
    have hended := generation_ne_of_begins hm hbegun howned
    have hle := Nat.le_trans hbegun ((f.moveAll before).generation_le_move m)
    exact generation_ne_moveAll hwaited hle hended u hdue
  lost := by
    rintro before t after - hstale
    rcases (f.moveAll before).fire_cases t with ⟨-, h⟩ | ⟨hg, -⟩ | ⟨hg, -⟩
    · simp [gains, move, h]
    · exact absurd hg hstale
    · exact absurd hg hstale

/-! ## Questions on the clock -/

theorem log_performAll (f : Fetcher) (steps : List Step) : f.log <+: (f.performAll steps).log := by
  obtain ⟨moves, hadm, -, hmoves⟩ := f.performAll_moves steps
  rw [hmoves, log_moveAll hadm]
  exact List.prefix_append _ _

theorem debounce_move (f : Fetcher) (m : Move) : (f.move m).debounce = f.debounce := by
  cases m with
  | fire t =>
    rcases f.fire_cases t with ⟨-, h⟩ | ⟨-, -, h⟩ | ⟨-, -, h⟩ <;> simp only [move, h]
  | schedule request => exact f.abort_debounce
  | clear => exact f.abort_debounce
  | _ => rfl

theorem debounce_performAll (f : Fetcher) (steps : List Step) :
    (f.performAll steps).debounce = f.debounce := by
  obtain ⟨moves, -, -, hmoves⟩ := f.performAll_moves steps
  rw [hmoves]
  clear hmoves
  induction moves generalizing f with
  | nil => rfl
  | cons m moves ih => rw [moveAll_cons, ih, debounce_move]

/-- The steps up to the first that begins a generation. -/
theorem exists_waited (steps : List Step) : ∃ waited rest, steps = waited ++ rest ∧
    (∀ step ∈ waited, step.begins = false) ∧
      (rest = [] ∨ ∃ step later, rest = step :: later ∧ step.begins = true) := by
  induction steps with
  | nil => exact ⟨[], [], rfl, by simp, Or.inl rfl⟩
  | cons step steps ih =>
    cases hstep : step.begins with
    | true => exact ⟨[], step :: steps, rfl, by simp, Or.inr ⟨step, steps, rfl, hstep⟩⟩
    | false =>
      obtain ⟨waited, rest, rfl, hwaited, hrest⟩ := ih
      exact ⟨step :: waited, rest, rfl, List.forall_mem_cons.2 ⟨hstep, hwaited⟩, hrest⟩

theorem generation_performAll {waited : List Step}
    (hwaited : ∀ step ∈ waited, step.begins = false) :
    (f.performAll waited).generation = f.generation := by
  obtain ⟨moves, -, hquiet, hmoves⟩ := f.performAll_moves waited
  rw [hmoves, generation_moveAll_eq_iff]
  exact fun m hm => Move.begins_of_isQuiet (hquiet hwaited m hm)

/-- A generation that is over asks no more. -/
theorem asked_of_begins {step : Step} (hstep : step.begins = true) {later : List Step}
    (hn : n ≤ f.generation) (h : .asked n request ∈ (f.performAll (step :: later)).log) :
    .asked n request ∈ f.log := by
  obtain ⟨moves, hadm, -, hmoves⟩ := (f.perform step).2.performAll_moves later
  rw [performAll_cons, hmoves, log_moveAll hadm, List.mem_append] at h
  have hnot : .asked n request ∉ (f.perform step).2.gains moves := fun he => by
    have hlate := (generation_le_of_asked he).1
    cases step with
    | schedule r =>
      change f.generation + 1 ≤ n at hlate
      omega
    | clear =>
      change f.generation + 1 ≤ n at hlate
      omega
    | _ => cases hstep
  have h := h.resolve_right hnot
  cases step with
  | schedule r => exact f.abort_log ▸ h
  | clear => simpa [perform, clear] using h
  | _ => cases hstep

/-- On its clock the fetcher asks for the right requests. -/
structure AsksInTime (f : Fetcher) (steps : List Step) : Prop where
  /-- The request of a schedule is passed on if it is worth a question and steps that wait bring the
  clock to the end of its debounce before another schedule or a clear, and only then. -/
  asked_iff : ∀ before request after, steps = before ++ .schedule request :: after →
    let g := f.performAll before
    .asked (g.generation + 1) request ∈ (f.performAll steps).log ↔
      isWorthAsking request.input = true ∧ ∃ waited rest, after = waited ++ rest ∧ waited ≠ [] ∧
        (∀ step ∈ waited, step.begins = false) ∧
        g.now + f.debounce ≤ ((g.schedule request).performAll waited).now
  /-- What is passed on is the request of a schedule, as it was scheduled. -/
  own : ∀ n request, .asked n request ∈ (f.performAll steps).log → ∃ before after,
    steps = before ++ .schedule request :: after ∧ n = (f.performAll before).generation + 1
  in_order : (askers (f.performAll steps).log).Pairwise (· < ·)

theorem asked_iff_of_waits (hf : f.Rests) (ha : f.AsksOnce) (request : Request)
    (after : List Step) :
    .asked (f.generation + 1) request ∈ ((f.schedule request).performAll after).log ↔
      isWorthAsking request.input = true ∧ ∃ waited rest, after = waited ++ rest ∧ waited ≠ [] ∧
        (∀ step ∈ waited, step.begins = false) ∧
        f.now + f.debounce ≤ ((f.schedule request).performAll waited).now := by
  have hschedule := hf.schedule request
  have ha' : (f.schedule request).AsksOnce := ha.performAll [.schedule request]
  constructor
  · intro h
    obtain ⟨waited, rest, rfl, hwaited, hrest⟩ := exists_waited after
    have hgeneration := generation_performAll (f := f.schedule request) hwaited
    have hasked : .asked (f.generation + 1) request ∈
        ((f.schedule request).performAll waited).log := by
      rw [performAll_append] at h
      rcases hrest with rfl | ⟨step, later, rfl, hstep⟩
      · exact h
      · exact asked_of_begins hstep (Nat.le_of_eq hgeneration.symm) h
    have hne : waited ≠ [] := by
      rintro rfl
      have hold : .asked (f.generation + 1) request ∈ f.log := f.abort_log ▸ hasked
      have := ha.counted _ (mem_askers.2 ⟨_, hold⟩)
      omega
    refine ⟨(ha'.performAll waited).worth _ _ hasked, waited, rest, rfl, hne, hwaited, ?_⟩
    rcases (hschedule.waitsAll hne hwaited).passed _ (f.timer_mem_schedule request) with
      ht | ⟨hdue, -⟩
    · -- A timer that is still there would not have asked.
      exact absurd (mem_askers.2 ⟨_, hasked⟩) ((ha'.performAll waited).unasked _ ht rfl)
    · exact hdue
  · rintro ⟨hworth, waited, rest, rfl, hne, hwaited, hdue⟩
    have hwaits := hschedule.waitsAll hne hwaited
    rw [performAll_append]
    refine (log_performAll _ rest).subset ?_
    rcases hwaits.passed _ (f.timer_mem_schedule request) with ht | ⟨-, hasked⟩
    · have hlate := hwaits.future _ ht hwaits.generation.symm
      change _ < f.now + f.debounce at hlate
      omega
    · exact hasked rfl ⟨rfl, hworth⟩

theorem asksInTime (hf : f.Rests) (ha : f.AsksOnce) (hnew : ∀ n request, ¬ f.Knows n request)
    (steps : List Step) : f.AsksInTime steps where
  asked_iff := by
    rintro before request after rfl g
    have hiff := asked_iff_of_waits (hf.performAll before) (ha.performAll before) request after
    rw [debounce_performAll] at hiff
    rw [performAll_append, performAll_cons]
    exact hiff
  own n request h := by
    have hknows : (f.performAll steps).Knows n request := Or.inr h
    exact hknows.of_performAll.resolve_left (hnew n request)
  in_order := (ha.performAll steps).increasing

/-- A new fetcher asks its provider for the right requests: those worth a question whose debounce
timer comes due before another schedule or a clear, each once, as it was scheduled and in the order
of the schedules. It does so whatever delays put the tasks in whatever order, and in every run of
steps at the moment that the clock says. -/
theorem asks_rightly (provider : Provider) (debounce : Nat) :
    let start : Fetcher := { provider, debounce }
    (∀ moves, start.Admits moves → start.AsksRightly moves) ∧
      ∀ steps, start.AsksInTime steps := by
  intro start
  have hstart : start.Rests := rests_fresh provider debounce
  have hasks : start.AsksOnce := asksOnce_fresh provider debounce
  have hnew : ∀ n request, ¬ start.Knows n request := by
    rintro n request (⟨t, ht, -⟩ | he)
    · cases ht
    · cases he
  exact ⟨fun moves hadm => asksRightly hstart.ordered hasks hnew hadm,
    fun steps => asksInTime hstart hasks hnew steps⟩

/-- A provider that answers at once. -/
def instant : Provider := ⟨fun r => .ok [r.input ++ " --suggested"], fun _ => 0⟩

/-- The first request is lost before it asks, and the second one supersedes it. -/
def superseded : List Step :=
  [.schedule ⟨"old", []⟩, .settleWithin 100, .schedule ⟨"new", []⟩, .advance 300]

theorem asks_rightly_superseded :
    let start : Fetcher := { provider := instant }
    let old : Task := ⟨1, ⟨"old", []⟩, .debouncing, 300⟩
    let new : Task := ⟨2, ⟨"new", []⟩, .debouncing, 300⟩
    let moves : List Move :=
      [.schedule old.request, .disown, .schedule new.request, .fire old, .fire new]
    (start.Admits moves ∧ .asked 2 new.request ∈ start.gains moves ∧
      (start.moveAll [.schedule old.request, .disown, .schedule new.request]).gains [.fire old] =
        []) ∧
      .asked 2 new.request ∈ (start.performAll superseded).log := by
  intro start old new moves
  have hadm : start.Admits moves :=
    ⟨trivial, trivial, trivial, List.mem_cons_self, List.mem_cons_self, trivial⟩
  have hmoves := (asks_rightly instant 300).1 moves hadm
  have hsteps := (asks_rightly instant 300).2 superseded
  refine ⟨⟨hadm, ?_, ?_⟩, ?_⟩
  · refine (hmoves.asked_iff [.schedule old.request, .disown] new.request [.fire old, .fire new]
      rfl).2 ⟨by decide, [.fire old], new, [], rfl, by simp [Move.begins, Move.step?], rfl, rfl⟩
  · exact hmoves.lost [.schedule old.request, .disown, .schedule new.request] old [.fire new] rfl
      (by decide)
  · exact (hsteps.asked_iff [.schedule old.request, .settleWithin 100] new.request [.advance 300]
      rfl).2 ⟨by decide, [.advance 300], [], rfl, by simp, by decide, by decide⟩

end Fetcher

end TreeShell.Suggest
