import TreeShell.Proofs.Suggest.LastRequest
import TreeShell.Proofs.Suggest.Questions

/-! # Letting a fetcher go

A fetcher that is let go aborts the task it owns and nothing else. A task whose wait was given up
is not owned any more, and since no new generation begins either, the task of the last request goes
on to ask the provider when its debounce is over. That is the only question that is ever asked after
the release, and this module says exactly when it is asked. -/

namespace TreeShell.Suggest.Fetcher

variable {f g : Fetcher} {request : Request} {waited : List Step}

/-! ## Fetchers that were let go -/

theorem Rests.owned_eq (hf : f.Rests) (h : f.owned ≠ none) : f.owned = some f.generation := by
  obtain ⟨n, hn⟩ := Option.ne_none_iff_exists'.1 h
  rw [hn, hf.mine n hn]

/-- The current task outlives the release only if it was not owned. -/
theorem Rests.owned_of_mem_release (hf : f.Rests) {t : Task} (ht : t ∈ f.release.tasks)
    (hg : t.generation = f.generation) : f.owned = none := by
  by_contra h
  exact ((mem_abort_tasks (hf.owned_eq h)).1 ht).2 hg

theorem release_of_not_owned (h : f.owned = none) : f.release = f := by
  simp only [release, abort, h]

theorem AsksOnce.release (hf : f.AsksOnce) : f.release.AsksOnce := by
  constructor
  · rw [Fetcher.release, abort_generation, abort_log]
    exact hf.counted
  · rw [Fetcher.release, abort_log]
    exact fun t ht => hf.unasked t (mem_of_mem_abort ht)
  · rw [Fetcher.release, abort_log]
    exact hf.increasing
  · rw [Fetcher.release, abort_log]
    exact hf.worth

/-! ## What is asked while nothing begins -/

theorem seen_eq (f : Fetcher) : f.seen = (questions f.log).map Prod.snd := by
  unfold seen questions
  rw [List.map_filterMap]
  congr 1
  funext e
  cases e <;> rfl

theorem mem_of_debouncing {moves : List Move} (hadm : f.Admits moves)
    (hquiet : ∀ m ∈ moves, m.isQuiet = true) {t : Task} (ht : t ∈ (f.moveAll moves).tasks)
    (hphase : t.phase = .debouncing) : t ∈ f.tasks := by
  induction moves generalizing f with
  | nil => exact ht
  | cons m moves ih =>
    have hmem := ih hadm.2 (fun k hk => hquiet k (List.mem_cons_of_mem _ hk)) ht
    rcases mem_move_tasks hadm.1 hmem with ⟨u, hu, -, -, hut⟩ | ⟨rfl, -⟩
    · exact hut hphase ▸ hu
    · cases hquiet _ List.mem_cons_self

theorem mem_of_asked {moves : List Move} (hadm : f.Admits moves)
    (hquiet : ∀ m ∈ moves, m.isQuiet = true) {n : Nat} (h : .asked n request ∈ f.gains moves) :
    ∃ t ∈ f.tasks, Task.IsReady t ∧ t.generation = f.generation ∧ t.generation = n ∧
      t.request = request := by
  obtain ⟨before, t, after, rfl, hg, hready, hn, hr⟩ := asked_mem_gains.1 h
  obtain ⟨hbefore, ht, -⟩ := (f.admits_append _ _).1 hadm
  have hquiet' : ∀ m ∈ before, m.isQuiet = true := fun m hm =>
    hquiet m (List.mem_append_left _ hm)
  have hsame : (f.moveAll before).generation = f.generation :=
    generation_moveAll_eq_iff.2 fun m hm => Move.begins_of_isQuiet (hquiet' m hm)
  exact ⟨t, mem_of_debouncing hbefore hquiet' ht hready.1, hready, hg.trans hsame, hn, hr⟩

/-- While steps wait, the one question that can be asked is that of the current task. -/
theorem questions_of_waits (ha : f.AsksOnce) (hwaited : ∀ step ∈ waited, step.begins = false) :
    questions (f.performAll waited).log = questions f.log ∨
      ∃ t ∈ f.tasks, Task.IsReady t ∧ t.generation = f.generation ∧
        questions (f.performAll waited).log = questions f.log ++ [(t.generation, t.request)] := by
  obtain ⟨moves, hadm, hquiet, hmoves⟩ := f.performAll_moves waited
  have hquiet := hquiet hwaited
  have hincreasing := (ha.moveAll hadm).increasing
  rw [log_moveAll hadm, askers_append] at hincreasing
  have hasked : ∀ q ∈ questions (f.gains moves), ∃ t ∈ f.tasks, Task.IsReady t ∧
      t.generation = f.generation ∧ t.generation = q.1 ∧ t.request = q.2 := fun q hq =>
    mem_of_asked hadm hquiet (mem_questions.1 hq)
  rw [hmoves, log_moveAll hadm, questions_append]
  cases hqs : questions (f.gains moves) with
  | nil => exact Or.inl (List.append_nil _)
  | cons q qs =>
    rw [hqs] at hasked
    obtain ⟨t, ht, hready, hg, hn, hr⟩ := hasked q List.mem_cons_self
    have hnil : qs = [] := by
      refine List.eq_nil_iff_forall_not_mem.2 fun p hp => ?_
      obtain ⟨u, -, -, hu, hpu, -⟩ := hasked p (List.mem_cons_of_mem _ hp)
      have hlt := (List.pairwise_append.1 hincreasing).2.1
      rw [askers, hqs, List.map_cons, List.pairwise_cons] at hlt
      have := hlt.1 p.1 (List.mem_map_of_mem hp)
      omega
    have hq : q = (t.generation, t.request) := Prod.ext hn.symm hr.symm
    exact Or.inr ⟨t, ht, hready, hg, by rw [hnil, hq]⟩

/-- A task that is to ask does so as soon as the clock has reached its moment, and no sooner. -/
theorem asked_iff_of_waiting (hf : f.Rests) (ha : f.AsksOnce) (hne : waited ≠ [])
    (hwaited : ∀ step ∈ waited, step.begins = false) {t : Task} (ht : t ∈ f.tasks)
    (hg : t.generation = f.generation) (hready : Task.IsReady t) :
    .asked t.generation t.request ∈ (f.performAll waited).log ↔
      t.due ≤ (f.performAll waited).now := by
  have hwaits := hf.waitsAll hne hwaited
  rcases hwaits.passed t ht with ht | ⟨hdue, hasked⟩
  · have hlate := hwaits.future t ht (hg.trans hwaits.generation.symm)
    have hnot := (ha.performAll waited).unasked t ht hready.1
    constructor
    · exact fun he => absurd (mem_askers.2 ⟨_, he⟩) hnot
    · intro hdue
      omega
  · exact ⟨fun _ => hdue, fun _ => hasked hg hready⟩

/-! ## Waits that were given up -/

/-- One of the steps is a wait that has to be given up. -/
def GivesUp (f : Fetcher) (waited : List Step) : Prop :=
  ∃ before ms after, waited = before ++ .settleWithin ms :: after ∧
    ((f.performAll before).settleWithin ms).1 = false

theorem owned_waits (hf : f.Rests) {step : Step} (hstep : step.begins = false)
    (hnone : f.owned = none) : (f.perform step).2.owned = none := by
  cases step with
  | schedule request => cases hstep
  | clear => cases hstep
  | advance ms => exact (ran_run _ _ hf.toTimely f.turnsLeft_le_work).owned.trans hnone
  | settle => simpa only [perform, settle_of_not_owned hnone] using hnone
  | settleWithin ms => simpa only [perform, settleWithin_of_not_owned hnone] using hnone

theorem owned_waitsAll (hf : f.Rests) (hwaited : ∀ step ∈ waited, step.begins = false)
    (hnone : f.owned = none) : (f.performAll waited).owned = none := by
  induction waited generalizing f with
  | nil => exact hnone
  | cons step waited ih =>
    obtain ⟨hstep, hrest⟩ := List.forall_mem_cons.1 hwaited
    exact ih (hf.perform step) hrest (owned_waits hf hstep hnone)

theorem owned_settleWithin (f : Fetcher) (ms : Nat) : (f.settleWithin ms).2.owned = none := by
  cases hn : f.owned with
  | none => simpa only [settleWithin_of_not_owned hn] using hn
  | some n =>
    rw [settleWithin_of_owned hn]
    dsimp only
    split <;> rfl

theorem GivesUp.owned (h : f.GivesUp waited) (hf : f.Rests)
    (hwaited : ∀ step ∈ waited, step.begins = false) : (f.performAll waited).owned = none := by
  obtain ⟨before, ms, after, rfl, -⟩ := h
  rw [performAll_append, performAll_cons]
  refine owned_waitsAll ((hf.performAll before).perform _) ?_ (owned_settleWithin _ ms)
  exact fun step hs => hwaited step (List.mem_append_right _ (List.mem_cons_of_mem _ hs))

theorem GivesUp.cons {step : Step} (h : (f.perform step).2.GivesUp waited) :
    f.GivesUp (step :: waited) := by
  obtain ⟨before, ms, after, rfl, hfalse⟩ := h
  exact ⟨step :: before, ms, after, rfl, hfalse⟩

/-- The step that waited for the current task to end has seen it end. -/
theorem Rests.hasEnded_settleWithin (hf : f.Rests) (hn : f.owned = some f.generation) {ms : Nat}
    (htrue : (f.settleWithin ms).1 = true) : (f.settleWithin ms).2.HasEnded := by
  have h := ran_run (some f.generation) (some (f.now + ms)) hf.toTimely f.turnsLeft_le_work
  rw [settleWithin_of_owned hn] at htrue ⊢
  dsimp only at htrue ⊢
  split at htrue
  · cases htrue
  · rename_i hended
    rw [if_neg hended]
    exact h.hasEnded (Bool.not_eq_true _ ▸ hended)

/-- An owned task that is there at the end but not owned any more was given up in between. -/
theorem givesUp_of_not_owned (hf : f.Rests) (hn : f.owned = some f.generation)
    (hwaited : ∀ step ∈ waited, step.begins = false) (hnone : (f.performAll waited).owned = none)
    (hlive : ¬ (f.performAll waited).HasEnded) : f.GivesUp waited := by
  induction waited generalizing f with
  | nil =>
    change f.owned = none at hnone
    rw [hn] at hnone
    cases hnone
  | cons step waited ih =>
    obtain ⟨hstep, hrest⟩ := List.forall_mem_cons.1 hwaited
    rw [performAll_cons] at hnone hlive
    cases step with
    | schedule request => cases hstep
    | clear => cases hstep
    | advance ms =>
      have h := ran_run none (some (f.now + ms)) hf.toTimely f.turnsLeft_le_work
      have hstill : (f.advance ms).owned = some (f.advance ms).generation :=
        (h.owned.trans hn).trans (congrArg some h.generation.symm)
      exact (ih (hf.perform (.advance ms)) hstill hrest hnone hlive).cons
    | settle => exact absurd ((hf.hasEnded_settle hn).performAll hrest) hlive
    | settleWithin ms =>
      cases hreply : (f.settleWithin ms).1 with
      | false => exact ⟨[], ms, waited, rfl, hreply⟩
      | true => exact absurd ((hf.hasEnded_settleWithin hn hreply).performAll hrest) hlive

/-- Either nothing has begun at all, or there is a last step that begins a generation. -/
theorem exists_last_begin (steps : List Step) : (∀ step ∈ steps, step.begins = false) ∨
    ∃ before step waited, steps = before ++ step :: waited ∧ step.begins = true ∧
      ∀ step ∈ waited, step.begins = false := by
  induction steps with
  | nil => exact Or.inl (by simp)
  | cons step steps ih =>
    rcases ih with hwaited | ⟨before, last, waited, rfl, h⟩
    · cases hstep : step.begins with
      | false => exact Or.inl (List.forall_mem_cons.2 ⟨hstep, hwaited⟩)
      | true => exact Or.inr ⟨[], step, steps, rfl, hstep, hwaited⟩
    · exact Or.inr ⟨step :: before, last, waited, rfl, h⟩

theorem mem_of_debouncing_performAll (hwaited : ∀ step ∈ waited, step.begins = false) {t : Task}
    (ht : t ∈ (f.performAll waited).tasks) (hphase : t.phase = .debouncing) : t ∈ f.tasks := by
  obtain ⟨moves, hadm, hquiet, hmoves⟩ := f.performAll_moves waited
  exact mem_of_debouncing hadm (hquiet hwaited) (hmoves ▸ ht) hphase

/-- A timer of the current generation is the timer of a schedule after which nothing has begun. -/
theorem exists_schedule_of_debouncing (hf : f.Rests) (hnew : f.tasks = []) {steps : List Step}
    {t : Task} (ht : t ∈ (f.performAll steps).tasks)
    (hg : t.generation = (f.performAll steps).generation) (hphase : t.phase = .debouncing) :
    ∃ before waited, steps = before ++ .schedule t.request :: waited ∧
      (∀ step ∈ waited, step.begins = false) ∧ t = (f.performAll before).timer t.request := by
  rcases exists_last_begin steps with hwaited | ⟨before, step, waited, rfl, hstep, hwaited⟩
  · have ht := mem_of_debouncing_performAll hwaited ht hphase
    rw [hnew] at ht
    cases ht
  · rw [performAll_append, performAll_cons] at ht hg
    have hbefore := hf.performAll before
    have ht := mem_of_debouncing_performAll hwaited ht hphase
    rw [generation_performAll hwaited] at hg
    cases step with
    | schedule request =>
      simp only [perform, schedule_tasks, List.mem_append, List.mem_singleton] at ht
      rcases ht with ht | rfl
      · have hbegun := hbefore.ordered.begun t (mem_of_mem_abort ht)
        change t.generation = (f.performAll before).generation + 1 at hg
        omega
      · exact ⟨before, waited, rfl, hwaited, rfl⟩
    | clear =>
      have hbegun := hbefore.ordered.begun t (mem_of_mem_abort ht)
      change t.generation = (f.performAll before).generation + 1 at hg
      omega
    | _ => cases hstep

/-! ## What is asked after the release -/

/-- After `steps` the last request scheduled is worth a question and still debouncing, the wait for
it was given up, and its debounce is over within another `ms` milliseconds. -/
def Outlives (f : Fetcher) (steps : List Step) (ms : Nat) (request : Request) : Prop :=
  isWorthAsking request.input = true ∧ ∃ before waited,
    steps = before ++ .schedule request :: waited ∧ (∀ step ∈ waited, step.begins = false) ∧
      ((f.performAll before).schedule request).GivesUp waited ∧
      let due := (f.performAll before).now + f.debounce
      (f.performAll steps).now < due ∧ due ≤ (f.performAll steps).now + ms

theorem questions_release (f : Fetcher) : questions f.release.log = questions f.log := by
  rw [release, abort_log]

/-- The timer of a request that outlives the release is still there and nobody owns it. -/
theorem Outlives.lost (hf : f.Rests) {steps : List Step} {ms : Nat}
    (h : f.Outlives steps ms request) : ∃ t ∈ (f.performAll steps).tasks, Task.IsReady t ∧
      t.generation = (f.performAll steps).generation ∧ t.request = request ∧
      t.due ≤ (f.performAll steps).now + ms ∧ (f.performAll steps).owned = none := by
  obtain ⟨hworth, before, waited, rfl, hwaited, hgives, hstill, hdue⟩ := h
  rw [performAll_append, performAll_cons] at hstill hdue ⊢
  have hbefore := hf.performAll before
  have hschedule := hbefore.schedule request
  have hne : waited ≠ [] := by
    rintro rfl
    obtain ⟨early, ms, late, hnil, -⟩ := hgives
    simp at hnil
  have hwaits := hschedule.waitsAll hne hwaited
  have hmoment : ((f.performAll before).timer request).due =
      (f.performAll before).now + f.debounce := by
    rw [timer, debounce_performAll]
  rcases hwaits.passed _ (timer_mem_schedule _ request) with ht | ⟨hpast, -⟩
  · exact ⟨_, ht, ⟨rfl, hworth⟩, hwaits.generation.symm, rfl, hmoment ▸ hdue,
      hgives.owned hschedule hwaited⟩
  · rw [hmoment] at hpast
    exact absurd hpast (Nat.not_le.2 hstill)

/-- A fetcher that was let go asks no further question, but for the one of a request that outlives
the release. -/
theorem questions_after_release (hf : f.Rests) (ha : f.AsksOnce) (hnew : f.tasks = [])
    (steps : List Step) (ms : Nat) :
    let g := f.performAll steps
    questions (g.release.advance ms).log = questions g.log ∨
      ∃ request, f.Outlives steps ms request := by
  intro g
  have hg : g.Rests := hf.performAll steps
  have hasks : g.AsksOnce := ha.performAll steps
  have hwaited : ∀ step ∈ [Step.advance ms], step.begins = false := by simp [Step.begins]
  rcases questions_of_waits hasks.release hwaited with hsame | ⟨t, ht, hready, hn, hone⟩
  · exact Or.inl (hsame.trans g.questions_release)
  · right
    -- A task that asks after the release is current, so the fetcher had lost it.
    have hown := hg.owned_of_mem_release ht (hn.trans g.abort_generation)
    rw [release_of_not_owned hown] at ht hn hone
    have hasked : .asked t.generation t.request ∈ (g.performAll [.advance ms]).log := by
      rw [← mem_questions, hone]
      simp
    have hdue := (asked_iff_of_waiting hg hasks (by simp) hwaited ht hn hready).1 hasked
    have hlate := hg.future hown t ht hn
    obtain ⟨before, waited, rfl, hquiet, hmine⟩ :=
      exists_schedule_of_debouncing hf hnew ht hn hready.1
    have hmoment : t.due = (f.performAll before).now + f.debounce := by
      rw [hmine, timer, debounce_performAll]
    have hschedule := (hf.performAll before).schedule t.request
    have hlive : ¬ g.HasEnded := fun hended => hended t ht hn
    have hsplit : g = ((f.performAll before).schedule t.request).performAll waited :=
      f.performAll_append before _
    rw [hsplit] at hown hlive
    exact ⟨t.request, hready.2, before, waited, rfl, hquiet,
      givesUp_of_not_owned hschedule rfl hquiet hown hlive, hmoment ▸ hlate, hmoment ▸ hdue⟩

/-- A request that outlives the release is the one question that is still asked. -/
theorem Outlives.asked (hf : f.Rests) (ha : f.AsksOnce) {steps : List Step} {ms : Nat}
    (h : f.Outlives steps ms request) :
    let g := f.performAll steps
    (g.release.advance ms).seen = g.seen ++ [request] := by
  intro g
  have hg : g.Rests := hf.performAll steps
  have hasks : g.AsksOnce := ha.performAll steps
  have hwaited : ∀ step ∈ [Step.advance ms], step.begins = false := by simp [Step.begins]
  obtain ⟨t, ht, hready, hn, rfl, hdue, hown⟩ := h.lost hf
  have hasked := (asked_iff_of_waiting hg hasks (by simp) hwaited ht hn hready).2 hdue
  rw [release_of_not_owned hown, seen_eq, seen_eq]
  rcases questions_of_waits hasks hwaited with hsame | ⟨u, hu, -, hu', hone⟩
  · rw [← mem_questions, hsame, mem_questions] at hasked
    exact absurd (mem_askers.2 ⟨_, hasked⟩) (hasks.unasked t ht hready.1)
  · obtain rfl := hg.eq_of_generation ht hu (hn.trans hu'.symm)
    change (questions (g.performAll [.advance ms]).log).map Prod.snd = _
    rw [hone, List.map_append]
    rfl

/-- After a fetcher was let go its provider is asked nothing any more, unless the last request was
lost while it was debouncing: a wait for it was given up and nothing has begun since. That request,
if it is worth a question, is asked as soon as its debounce is over, and nothing else is. -/
theorem seen_after_release (provider : Provider) (debounce : Nat) (steps : List Step) (ms : Nat) :
    let start : Fetcher := { provider, debounce }
    let f := start.performAll steps
    ((f.release.advance ms).seen = f.seen ↔ ∀ request, ¬ start.Outlives steps ms request) ∧
      ∀ request, start.Outlives steps ms request →
        (f.release.advance ms).seen = f.seen ++ [request] := by
  intro start f
  have hstart : start.Rests := rests_fresh provider debounce
  have hasks : start.AsksOnce := asksOnce_fresh provider debounce
  have hasked : ∀ request, start.Outlives steps ms request →
      (f.release.advance ms).seen = f.seen ++ [request] := fun request h =>
    h.asked hstart hasks
  refine ⟨⟨fun hsame request h => ?_, fun hnone => ?_⟩, hasked⟩
  · have hmore := hasked request h
    rw [hsame] at hmore
    simp at hmore
  · rcases questions_after_release hstart hasks rfl steps ms with hsame | ⟨request, h⟩
    · rw [seen_eq, seen_eq, hsame]
    · exact absurd h (hnone request)

/-- The wait is given up before the debounce is over. -/
def abandoned : List Step := [.schedule ⟨"ls", []⟩, .settleWithin 100]

theorem seen_after_release_abandoned :
    let f := performAll { provider := instant } abandoned
    f.seen = [] ∧ (f.release.advance 100000).seen = [⟨"ls", []⟩] := by
  intro f
  have hlost : Outlives { provider := instant } abandoned 100000 ⟨"ls", []⟩ :=
    ⟨by decide, [], [.settleWithin 100], rfl, by decide, ⟨[], 100, [], rfl, by decide⟩, by decide⟩
  exact ⟨rfl, (seen_after_release instant 300 abandoned 100000).2 ⟨"ls", []⟩ hlost⟩

/-- Letting a fetcher go does not always stop it. -/
theorem not_every_release_stops :
    ¬ ∀ provider debounce steps ms, let f := performAll { provider, debounce } steps
      (f.release.advance ms).seen.length = f.seen.length := by
  intro h
  exact absurd (h instant 300 abandoned 100000) (by decide)

end TreeShell.Suggest.Fetcher
