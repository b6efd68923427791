import TreeShell.Proofs.Suggest.Waiting

/-! # The last request wins

From a schedule on, the task of the current generation carries the request of that schedule, and
once it has ended the suggestions are what this request comes to. Tasks of earlier generations may
still be on their way, debouncing or waiting for an answer; whenever they come due they change
nothing that is shown. -/

namespace TreeShell.Suggest

/-- What a request comes to: no suggestions when its input, trimmed, has fewer than two
characters. -/
def Provider.outcome (p : Provider) (request : Request) : List String :=
  if (Text.trim request.input).length < 2 then [] else p.suggestions request

namespace Fetcher

theorem outcome_of_isWorthAsking {p : Provider} {request : Request}
    (h : isWorthAsking request.input = true) : p.outcome request = p.suggestions request := by
  simp only [isWorthAsking, decide_eq_true_eq] at h
  exact if_neg (by omega)

theorem outcome_of_not_isWorthAsking {p : Provider} {request : Request}
    (h : ¬ isWorthAsking request.input = true) : p.outcome request = [] := by
  simp only [isWorthAsking, decide_eq_true_eq] at h
  exact if_pos (by omega)

variable {f : Fetcher} {request : Request}

/-- The current generation works at `request`, and what is shown when it has ended is what the
request comes to. -/
structure Answers (f : Fetcher) (request : Request) : Prop where
  carried : ∀ t ∈ f.tasks, t.generation = f.generation →
    t.request = request ∧ (t.phase = .asking → isWorthAsking request.input = true)
  shown : f.HasEnded → f.latest = f.provider.outcome request

theorem answers_schedule (hf : f.Ordered) (request : Request) :
    (f.schedule request).Answers request where
  carried := by
    rw [schedule_tasks]
    intro t ht hg
    change t.generation = f.generation + 1 at hg
    rcases List.mem_append.1 ht with ht | ht
    · have := hf.begun t (mem_of_mem_abort ht)
      omega
    · rw [List.mem_singleton.1 ht]
      exact ⟨rfl, nofun⟩
  shown h := absurd rfl (h _ (f.timer_mem_schedule request))

/-- The one task that can publish carries the request, and it asks only if that is worth it. -/
theorem Answers.found (hf : f.Answers request) {t : Task} (ht : t ∈ f.tasks)
    (hg : t.generation = f.generation) (hready : ¬ Task.IsReady t) :
    f.found t = f.provider.outcome request := by
  obtain ⟨hrequest, hworth⟩ := hf.carried t ht hg
  cases hphase : t.phase with
  | debouncing =>
    have hnot : ¬ isWorthAsking request.input = true := fun h =>
      hready ⟨hphase, by rw [hrequest]; exact h⟩
    simp only [Fetcher.found, hphase, outcome_of_not_isWorthAsking hnot]
  | asking =>
    simp only [Fetcher.found, hphase, hrequest, outcome_of_isWorthAsking (hworth hphase)]

theorem Answers.fire (hf : f.Answers request) {t : Task} (ht : t ∈ f.tasks) :
    (f.fire t).Answers request := by
  have hkept : ∀ u ∈ drop t.generation f.tasks, u.generation = f.generation →
      u.request = request ∧ (u.phase = .asking → isWorthAsking request.input = true) :=
    fun u hu => hf.carried u (mem_drop.1 hu).1
  rcases f.fire_cases t with ⟨hstale, h⟩ | ⟨hg, hready, h⟩ | ⟨hg, hready, h⟩
  · rw [h]
    refine ⟨hkept, fun hended => hf.shown fun u hu hu' => ?_⟩
    exact hended u (mem_drop.2 ⟨hu, fun e => hstale (e.symm.trans hu')⟩) hu'
  · rw [h]
    obtain ⟨hrequest, -⟩ := hf.carried t ht hg
    constructor
    · intro u hu hu'
      rcases List.mem_append.1 hu with hu | hu
      · exact hkept u hu hu'
      · rw [List.mem_singleton.1 hu]
        exact ⟨hrequest, fun _ => hrequest ▸ hready.2⟩
    · intro hended
      let asking : Task := { t with phase := .asking, due := t.due + f.provider.delay t.request }
      have hasking : asking ∈ drop t.generation f.tasks ++ [asking] := by simp
      exact absurd hg (hended asking hasking)
  · rw [h]
    exact ⟨hkept, fun _ => hf.found ht hg hready⟩

theorem Answers.move (hf : f.Answers request) {m : Move} (hm : f.Allows m)
    (hquiet : m.isQuiet = true) : (f.move m).Answers request := by
  cases m with
  | fire t => exact hf.fire hm
  | disown => exact ⟨hf.carried, hf.shown⟩
  | pass moment => exact ⟨hf.carried, hf.shown⟩
  | schedule request => cases hquiet
  | clear => cases hquiet
  | change provider => cases hquiet

theorem Answers.moveAll (hf : f.Answers request) {moves : List Move} (h : f.Admits moves)
    (hquiet : ∀ m ∈ moves, m.isQuiet = true) : (f.moveAll moves).Answers request :=
  moveAll_induction (P := fun g => g.Answers request) (fun _ _ hg hm hq => hg.move hm hq) hf h
    hquiet

/-! ## Providers -/

theorem provider_move {m : Move} (hm : ∀ provider, m ≠ .change provider) :
    (f.move m).provider = f.provider := by
  have habort : f.abort.provider = f.provider := by
    unfold abort
    split <;> rfl
  cases m with
  | fire t =>
    rcases f.fire_cases t with ⟨-, h⟩ | ⟨-, -, h⟩ | ⟨-, -, h⟩ <;> simp only [Fetcher.move, h]
  | schedule request => exact habort
  | clear => exact habort
  | change provider => exact absurd rfl (hm provider)
  | disown => rfl
  | pass moment => rfl

theorem provider_moveAll {moves : List Move} (hquiet : ∀ m ∈ moves, m.isQuiet = true) :
    (f.moveAll moves).provider = f.provider := by
  induction moves generalizing f with
  | nil => rfl
  | cons m moves ih =>
    rw [moveAll_cons, ih fun n hn => hquiet n (List.mem_cons_of_mem _ hn)]
    refine provider_move ?_
    rintro provider rfl
    cases hquiet _ List.mem_cons_self

theorem provider_perform (f : Fetcher) (step : Step) :
    (f.perform step).2.provider = f.provider := by
  cases hstep : step.begins with
  | false =>
    obtain ⟨moves, -, -, hquiet, h⟩ := f.perform_moves step
    rw [h, provider_moveAll (hquiet hstep)]
  | true =>
    cases step with
    | schedule request => exact provider_move (m := .schedule request) nofun
    | clear => exact provider_move (m := .clear) nofun
    | _ => cases hstep

theorem provider_schedule (f : Fetcher) (request : Request) :
    (f.schedule request).provider = f.provider :=
  f.provider_perform (.schedule request)

theorem provider_performAll (f : Fetcher) (steps : List Step) :
    (f.performAll steps).provider = f.provider := by
  induction steps generalizing f with
  | nil => rfl
  | cons step steps ih => rw [performAll_cons, ih, provider_perform]

/-! ## Runs -/

theorem HasEnded.moveAll (hf : f.HasEnded) {moves : List Move} (h : f.Admits moves)
    (hquiet : ∀ m ∈ moves, m.isQuiet = true) : (f.moveAll moves).HasEnded := by
  have hsame : (f.moveAll moves).generation = f.generation :=
    generation_moveAll_eq_iff.2 fun m hm => Move.begins_of_isQuiet (hquiet m hm)
  unfold HasEnded
  rw [hsame]
  exact generation_ne_moveAll h (Nat.le_refl _) hf

/-- A fetcher that owns the current task has waited for its end when it has settled. -/
theorem Rests.hasEnded_settle (hf : f.Rests) (hn : f.owned = some f.generation) :
    f.settle.HasEnded := by
  have h := ran_run (some f.generation) none hf.toTimely f.turnsLeft_le_work
  rw [settle_of_owned hn]
  exact h.hasEnded h.isLive_eq_false

theorem Answers.performAll (hf : f.Answers request) {waited : List Step}
    (hwaited : ∀ step ∈ waited, step.begins = false) : (f.performAll waited).Answers request := by
  obtain ⟨moves, hadm, hquiet, hmoves⟩ := f.performAll_moves waited
  exact hmoves ▸ hf.moveAll hadm (hquiet hwaited)

theorem HasEnded.performAll (hf : f.HasEnded) {waited : List Step}
    (hwaited : ∀ step ∈ waited, step.begins = false) : (f.performAll waited).HasEnded := by
  obtain ⟨moves, hadm, hquiet, hmoves⟩ := f.performAll_moves waited
  exact hmoves ▸ hf.moveAll hadm (hquiet hwaited)

/-- What is shown after a schedule and a wait for its end. -/
theorem Rests.latest_settle (hf : f.Rests) (request : Request) :
    (f.schedule request).settle.latest = f.provider.outcome request := by
  have hended := (hf.schedule request).hasEnded_settle rfl
  have hquiet : ∀ step ∈ [Step.settle], step.begins = false := by decide
  have hlatest := ((answers_schedule hf.ordered request).performAll hquiet).shown hended
  rwa [provider_performAll, provider_schedule] at hlatest

/-- Whatever a fetcher has been through, a schedule leaves the suggestions alone, and as soon as it
has settled they are what the provider comes to for that request, and stay so until the next call
that begins a generation. The same holds of moves in any order: once the task of the last request
has ended, nothing that still comes due changes what it has published. -/
theorem last_request_wins (provider : Provider) (debounce : Nat) :
    let start : Fetcher := { provider, debounce }
    (∀ steps request waits, (∀ step ∈ waits, step.begins = false) →
      let f := start.performAll steps
      (f.schedule request).latest = f.latest ∧
        ((f.schedule request).settle.performAll waits).latest = provider.outcome request) ∧
    ∀ before request after, start.Admits (before ++ .schedule request :: after) →
      (∀ m ∈ after, m.isQuiet = true) →
      let f := start.moveAll before
      (f.schedule request).latest = f.latest ∧
        (((f.schedule request).moveAll after).HasEnded →
          ((f.schedule request).moveAll after).latest = f.provider.outcome request) := by
  intro start
  have hstart : start.Rests := rests_fresh provider debounce
  constructor
  · intro steps request waits hwaits f
    refine ⟨f.abort_latest, ?_⟩
    have hf : f.Rests := hstart.performAll steps
    have hprovider : (f.schedule request).provider = provider := by
      rw [provider_schedule]
      exact start.provider_performAll steps
    have hended := ((hf.schedule request).hasEnded_settle rfl).performAll hwaits
    have hall : ∀ step ∈ Step.settle :: waits, step.begins = false :=
      List.forall_mem_cons.2 ⟨rfl, hwaits⟩
    have hlatest := ((answers_schedule hf.ordered request).performAll hall).shown hended
    rwa [provider_performAll, hprovider] at hlatest
  · intro before request after hadm hquiet f
    obtain ⟨hbefore, -, hafter⟩ := by simpa only [admits_append] using hadm
    refine ⟨f.abort_latest, fun hended => ?_⟩
    have hf : f.Ordered := hstart.ordered.moveAll hbefore
    have hlatest := ((answers_schedule hf request).moveAll hafter hquiet).shown hended
    rwa [provider_moveAll hquiet, provider_schedule] at hlatest

/-- A provider that extends the input and takes a second to do so. -/
def slow : Provider := ⟨fun r => .ok [r.input ++ " --suggested"], fun _ => 1000⟩

/-- The wait for the old request is given up while the provider works at it. -/
def givenUp : List Step := [.schedule ⟨"old", []⟩, .settleWithin 600]

theorem last_request_wins_given_up :
    let f := performAll { provider := slow } givenUp
    f.tasks ≠ [] ∧ f.latest = [] ∧
      ((f.schedule ⟨"new", []⟩).settle.performAll [.advance 2000, .settle]).latest =
        ["new --suggested"] := by
  intro f
  have hwaits : ∀ step ∈ [Step.advance 2000, .settle], step.begins = false := by decide
  have h := (last_request_wins slow 300).1 givenUp ⟨"new", []⟩ [.advance 2000, .settle] hwaits
  exact ⟨by decide, rfl, h.2⟩

end Fetcher

end TreeShell.Suggest
