import Mathlib.Data.List.Nodup
import TreeShell.Proofs.Suggest.Staleness

/-! # Waiting

Tasks come due in the order of their moments, and a loop that lets them come due stops only when
the task it waits for has ended, when no task is left, or when the next one is beyond its limit.
So between two steps the clock has passed every moment of the current task but the one it still
waits for, and what a step that begins nothing makes of a fetcher can be said by the clock alone. -/

namespace TreeShell.Suggest.Fetcher

variable {f g h : Fetcher} {t : Task} {tasks : List Task} {waiting limit : Option Nat}

/-! ## The loop ends -/

/-- How often a task can still come due. -/
def turns (t : Task) : Nat :=
  match t.phase with
  | .debouncing => 2
  | .asking => 1

def turnsLeft : List Task → Nat
  | [] => 0
  | t :: tasks => turns t + turnsLeft tasks

theorem turns_pos (t : Task) : 0 < turns t := by
  unfold turns
  split <;> omega

theorem turns_le_two (t : Task) : turns t ≤ 2 := by
  unfold turns
  split <;> omega

theorem turnsLeft_append (before after : List Task) :
    turnsLeft (before ++ after) = turnsLeft before + turnsLeft after := by
  induction before with
  | nil => simp [turnsLeft]
  | cons t before ih => simp [turnsLeft, ih, Nat.add_assoc]

theorem turnsLeft_le_work (f : Fetcher) : turnsLeft f.tasks ≤ f.work := by
  unfold work
  induction f.tasks with
  | nil => simp [turnsLeft]
  | cons t tasks ih =>
    have := turns_le_two t
    rw [turnsLeft, List.length_cons]
    omega

theorem turnsLeft_drop_le (n : Nat) (tasks : List Task) :
    turnsLeft (drop n tasks) ≤ turnsLeft tasks := by
  induction tasks with
  | nil => simp [drop, turnsLeft]
  | cons t tasks ih =>
    unfold drop at ih ⊢
    rw [List.filter_cons]
    split <;> simp only [turnsLeft] <;> omega

theorem turnsLeft_drop (ht : t ∈ tasks) :
    turnsLeft (drop t.generation tasks) + turns t ≤ turnsLeft tasks := by
  induction tasks with
  | nil => cases ht
  | cons u tasks ih =>
    have hrest := turnsLeft_drop_le t.generation tasks
    unfold drop at ih hrest ⊢
    rw [List.filter_cons]
    rcases List.mem_cons.1 ht with rfl | ht
    · simp only [bne_self_eq_false, Bool.false_eq_true, if_false, turnsLeft]
      omega
    · have := ih ht
      split <;> simp only [turnsLeft] <;> omega

/-- A task that asks keeps one of its two turns, every other task ends. -/
theorem turnsLeft_fire (ht : t ∈ f.tasks) : turnsLeft (f.fire t).tasks < turnsLeft f.tasks := by
  have hdrop := turnsLeft_drop ht
  have hpos := turns_pos t
  rcases f.fire_cases t with ⟨-, h⟩ | ⟨-, hready, h⟩ | ⟨-, -, h⟩
  · rw [h]
    dsimp only
    omega
  · have htwo : turns t = 2 := by simp [turns, hready.1]
    rw [h]
    simp only [turnsLeft_append, turnsLeft, turns]
    omega
  · rw [h]
    dsimp only
    omega

theorem earliest_eq_none : earliest tasks = none → tasks = [] := by
  cases tasks with
  | nil => exact fun _ => rfl
  | cons t tasks =>
    intro h
    simp only [earliest] at h
    split at h
    · split at h <;> cases h
    · cases h

theorem earliest_le (ht : earliest tasks = some t) : ∀ u ∈ tasks, t.due ≤ u.due := by
  induction tasks generalizing t with
  | nil => cases ht
  | cons v tasks ih =>
    intro u hu
    simp only [earliest] at ht
    split at ht
    · rename_i w hw
      split at ht
      · obtain rfl := Option.some.inj ht
        rcases List.mem_cons.1 hu with rfl | hu
        · omega
        · exact ih hw u hu
      · obtain rfl := Option.some.inj ht
        rcases List.mem_cons.1 hu with rfl | hu
        · exact Nat.le_refl _
        · have := ih hw u hu
          omega
    · rename_i hnone
      obtain rfl := Option.some.inj ht
      rw [earliest_eq_none hnone, List.mem_singleton] at hu
      exact Nat.le_of_eq (by rw [hu])

/-! ## The clock -/

/-- No two tasks have one generation, and none is overdue. -/
structure Timely (f : Fetcher) : Prop where
  distinct : (f.tasks.map Task.generation).Nodup
  ahead : ∀ t ∈ f.tasks, f.now ≤ t.due

theorem nodup_drop (hd : (tasks.map Task.generation).Nodup) (n : Nat) :
    ((drop n tasks).map Task.generation).Nodup :=
  hd.sublist (List.filter_sublist.map _)

theorem Timely.eq_of_generation (hf : f.Timely) {u : Task} (ht : t ∈ f.tasks) (hu : u ∈ f.tasks)
    (h : t.generation = u.generation) : t = u :=
  List.inj_on_of_nodup_map hf.distinct ht hu h

theorem now_fire (f : Fetcher) (t : Task) : (f.fire t).now = t.due := by
  rcases f.fire_cases t with ⟨-, h⟩ | ⟨-, -, h⟩ | ⟨-, -, h⟩ <;> rw [h]

theorem owned_fire (f : Fetcher) (t : Task) : (f.fire t).owned = f.owned := by
  rcases f.fire_cases t with ⟨-, h⟩ | ⟨-, -, h⟩ | ⟨-, -, h⟩ <;> rw [h]

theorem generation_fire (f : Fetcher) (t : Task) : (f.fire t).generation = f.generation := by
  rcases f.fire_cases t with ⟨-, h⟩ | ⟨-, -, h⟩ | ⟨-, -, h⟩ <;> rw [h]

theorem log_fire (f : Fetcher) (t : Task) : f.log <+: (f.fire t).log := by
  rcases f.fire_cases t with ⟨-, h⟩ | ⟨-, -, h⟩ | ⟨-, -, h⟩ <;> simp [h]

/-- Everything but the task itself stays as it is. -/
theorem mem_fire_tasks {u : Task} (hu : u ∈ f.tasks) (hne : u.generation ≠ t.generation) :
    u ∈ (f.fire t).tasks := by
  have hdrop : u ∈ drop t.generation f.tasks := mem_drop.2 ⟨hu, hne⟩
  rcases f.fire_cases t with ⟨-, h⟩ | ⟨-, -, h⟩ | ⟨-, -, h⟩ <;> simp [h, hdrop]

theorem asked_fire (hg : t.generation = f.generation) (hready : Task.IsReady t) :
    .asked t.generation t.request ∈ (f.fire t).log := by
  rcases f.fire_cases t with ⟨hstale, -⟩ | ⟨-, -, h⟩ | ⟨-, hnot, -⟩
  · exact absurd hg hstale
  · simp [h]
  · exact absurd hready hnot

theorem Timely.fire (hf : f.Timely) (ht : earliest f.tasks = some t) : (f.fire t).Timely := by
  have hfirst := earliest_le ht
  have hahead : ∀ u ∈ drop t.generation f.tasks, t.due ≤ u.due := fun u hu =>
    hfirst u (mem_drop.1 hu).1
  have hdistinct := nodup_drop hf.distinct t.generation
  rcases f.fire_cases t with ⟨-, h⟩ | ⟨-, -, h⟩ | ⟨-, -, h⟩
  · rw [h]
    exact ⟨hdistinct, hahead⟩
  · rw [h]
    constructor
    · simp only [List.map_append, List.map_cons, List.map_nil]
      refine List.nodup_append.2 ⟨hdistinct, List.nodup_singleton _, ?_⟩
      intro n hn m hm
      obtain ⟨u, hu, rfl⟩ := List.mem_map.1 hn
      rw [List.mem_singleton.1 hm]
      exact (mem_drop.1 hu).2
    · intro u hu
      rcases List.mem_append.1 hu with hu | hu
      · exact hahead u hu
      · rw [List.mem_singleton.1 hu]
        exact Nat.le_add_right _ _
  · rw [h]
    exact ⟨hdistinct, hahead⟩

/-- What the loop has made of `f` when it stops at `g`. -/
structure Ran (waiting limit : Option Nat) (f g : Fetcher) : Prop where
  timely : g.Timely
  generation : g.generation = f.generation
  owned : g.owned = f.owned
  now_le : f.now ≤ g.now
  log : f.log <+: g.log
  bounded : ∀ l, limit = some l → f.now ≤ l → g.now ≤ l
  /-- While the task waited for is there, all others are beyond the limit. -/
  stopped : waiting.all g.isLive = true → ∀ t ∈ g.tasks, ∃ l, limit = some l ∧ l < t.due
  /-- What has left has come due, and with it the question of the current task. -/
  passed : ∀ t ∈ f.tasks, t ∈ g.tasks ∨ t.due ≤ g.now ∧
    (t.generation = f.generation → Task.IsReady t → .asked t.generation t.request ∈ g.log)

theorem Ran.stay (hf : f.Timely)
    (h : waiting.all f.isLive = true → ∀ t ∈ f.tasks, ∃ l, limit = some l ∧ l < t.due) :
    Ran waiting limit f f where
  timely := hf
  generation := rfl
  owned := rfl
  now_le := Nat.le_refl _
  log := List.prefix_refl _
  bounded _ _ hl := hl
  stopped := h
  passed _ ht := Or.inl ht

theorem Ran.fire (hf : f.Timely) (ht : earliest f.tasks = some t)
    (hlimit : ∀ l, limit = some l → t.due ≤ l) (h : Ran waiting limit (f.fire t) g) :
    Ran waiting limit f g where
  timely := h.timely
  generation := h.generation.trans (f.generation_fire t)
  owned := h.owned.trans (f.owned_fire t)
  now_le := by
    have hdue := hf.ahead t (earliest_mem ht)
    have hnow := h.now_le
    rw [now_fire] at hnow
    omega
  log := (f.log_fire t).trans h.log
  bounded l hl _ := h.bounded l hl (by rw [now_fire]; exact hlimit l hl)
  stopped := h.stopped
  passed u hu := by
    by_cases hut : u = t
    · subst u
      right
      have hnow := h.now_le
      rw [now_fire] at hnow
      exact ⟨hnow, fun hg hready => h.log.subset (asked_fire hg hready)⟩
    · have hne : u.generation ≠ t.generation := fun e =>
        hut (hf.eq_of_generation hu (earliest_mem ht) e)
      have hpassed := h.passed u (mem_fire_tasks hu hne)
      rwa [generation_fire] at hpassed

theorem ran_run (waiting limit : Option Nat) {steps : Nat} (hf : f.Timely)
    (hsteps : turnsLeft f.tasks ≤ steps) : Ran waiting limit f (run waiting limit steps f) := by
  induction steps generalizing f with
  | zero =>
    refine Ran.stay hf fun _ t ht => ?_
    have := turnsLeft_drop ht
    have := turns_pos t
    omega
  | succ steps ih =>
    unfold run
    split
    · cases ht : earliest f.tasks with
      | none =>
        refine Ran.stay hf fun _ u hu => ?_
        rw [earliest_eq_none ht] at hu
        cases hu
      | some t =>
        have hfirst := earliest_le ht
        have hless := turnsLeft_fire (earliest_mem ht)
        dsimp only
        split
        · rename_i hlimit
          refine Ran.fire hf ht ?_ (ih (hf.fire ht) (by omega))
          rintro l rfl
          simpa using hlimit
        · rename_i hlimit
          refine Ran.stay hf fun _ u hu => ?_
          cases limit with
          | none => simp at hlimit
          | some l =>
            have hu' := hfirst u hu
            simp only [Option.all_some, decide_eq_true_eq] at hlimit
            exact ⟨l, rfl, by omega⟩
    · rename_i hended
      exact Ran.stay hf fun hlive => absurd hlive hended

/-! ## Between two steps -/

/-- A fetcher between two steps: the task owned is the current one, and when the current task is
not owned its moment is still to come. -/
structure Rests (f : Fetcher) : Prop extends Timely f where
  ordered : f.Ordered
  mine : ∀ n, f.owned = some n → n = f.generation
  future : f.owned = none → ∀ t ∈ f.tasks, t.generation = f.generation → f.now < t.due

/-- What steps that begin nothing make of `f`, when at least one of them lets time pass. -/
structure Waits (f g : Fetcher) : Prop where
  rests : g.Rests
  generation : g.generation = f.generation
  now_le : f.now ≤ g.now
  log : f.log <+: g.log
  future : ∀ t ∈ g.tasks, t.generation = g.generation → g.now < t.due
  passed : ∀ t ∈ f.tasks, t ∈ g.tasks ∨ t.due ≤ g.now ∧
    (t.generation = f.generation → Task.IsReady t → .asked t.generation t.request ∈ g.log)

theorem Waits.trans (hg : Waits f g) (hh : Waits g h) : Waits f h where
  rests := hh.rests
  generation := hh.generation.trans hg.generation
  now_le := Nat.le_trans hg.now_le hh.now_le
  log := hg.log.trans hh.log
  future := hh.future
  passed t ht := by
    rcases hg.passed t ht with ht | ⟨hdue, hasked⟩
    · simpa only [hg.generation] using hh.passed t ht
    · exact Or.inr ⟨Nat.le_trans hdue hh.now_le, fun hn hready => hh.log.subset (hasked hn hready)⟩

theorem Rests.stays (hf : f.Rests) (h : f.owned = none) : Waits f f where
  rests := hf
  generation := rfl
  now_le := Nat.le_refl _
  log := List.prefix_refl _
  future := hf.future h
  passed _ ht := Or.inl ht

/-- After the loop the clock may still be put forward, but not past a task that is left. -/
theorem Ran.waits (h : Ran waiting limit f g) (hf : f.Rests) {now : Nat} {owned : Option Nat}
    (hordered : Ordered { g with now, owned }) (hnow : g.now ≤ now)
    (howned : owned = none ∨ owned = f.owned) (hahead : ∀ t ∈ g.tasks, now ≤ t.due)
    (hfuture : ∀ t ∈ g.tasks, t.generation = f.generation → now < t.due) :
    Waits f { g with now, owned } where
  rests :=
    { distinct := h.timely.distinct
      ahead := hahead
      ordered := hordered
      mine := by
        rintro n rfl
        have hn : some n = f.owned := howned.resolve_left nofun
        exact (hf.mine n hn.symm).trans h.generation.symm
      future := fun _ t ht hg => hfuture t ht (hg.trans h.generation) }
  generation := h.generation
  now_le := Nat.le_trans h.now_le hnow
  log := h.log
  future t ht hg := hfuture t ht (hg.trans h.generation)
  passed t ht := by
    rcases h.passed t ht with ht | ⟨hdue, hasked⟩
    · exact Or.inl ht
    · exact Or.inr ⟨Nat.le_trans hdue hnow, hasked⟩

theorem Ordered.perform (hf : f.Ordered) (step : Step) : (f.perform step).2.Ordered := by
  obtain ⟨moves, hadm, -, -, hstep⟩ := f.perform_moves step
  exact hstep ▸ hf.moveAll hadm

theorem isLive_iff {n : Nat} : f.isLive n = true ↔ ∃ t ∈ f.tasks, t.generation = n := by
  simp [isLive]

theorem settle_of_not_owned (h : f.owned = none) : f.settle = f := by
  simp only [settle, h]

theorem settle_of_owned {n : Nat} (h : f.owned = some n) :
    f.settle = { run (some n) none f.work f with owned := none } := by
  simp only [settle, h]

theorem settleWithin_of_not_owned (h : f.owned = none) (ms : Nat) :
    f.settleWithin ms = (true, f) := by
  simp only [settleWithin, h]

theorem settleWithin_of_owned {n : Nat} (h : f.owned = some n) (ms : Nat) :
    f.settleWithin ms =
      let after := run (some n) (some (f.now + ms)) f.work f
      if after.isLive n then (false, { after with owned := none, now := f.now + ms })
      else (true, { after with owned := none }) := by
  simp only [settleWithin, h]

theorem Rests.waits_advance (hf : f.Rests) (ms : Nat) : Waits f (f.advance ms) := by
  have hordered := hf.ordered.perform (.advance ms)
  have h := ran_run none (some (f.now + ms)) hf.toTimely f.turnsLeft_le_work
  have hbeyond : ∀ t ∈ (run none (some (f.now + ms)) f.work f).tasks, f.now + ms < t.due := by
    intro t ht
    obtain ⟨l, hl, hlt⟩ := h.stopped rfl t ht
    exact Option.some.inj hl ▸ hlt
  exact h.waits hf hordered (h.bounded _ rfl (by omega)) (Or.inr h.owned)
    (fun t ht => Nat.le_of_lt (hbeyond t ht)) fun t ht _ => hbeyond t ht

/-- The current generation has no task any more. -/
def HasEnded (f : Fetcher) : Prop := ∀ t ∈ f.tasks, t.generation ≠ f.generation

theorem Ran.hasEnded (h : Ran (some f.generation) limit f g)
    (hended : g.isLive f.generation = false) : g.HasEnded := by
  intro t ht hg
  have hlive := isLive_iff.2 ⟨t, ht, hg.trans h.generation⟩
  rw [hended] at hlive
  cases hlive

/-- Once the task waited for has ended, nothing of the current generation is left. -/
theorem Ran.waits_ended {n : Nat} (h : Ran (some n) limit f g) (hf : f.Rests)
    (hn : f.owned = some n) (hordered : Ordered { g with owned := none })
    (hended : g.isLive n = false) : Waits f { g with owned := none } := by
  obtain rfl := hf.mine n hn
  refine h.waits hf hordered (Nat.le_refl _) (Or.inl rfl) h.timely.ahead fun t ht hg => ?_
  exact absurd (hg.trans h.generation.symm) (h.hasEnded hended t ht)

theorem Ran.isLive_eq_false {n : Nat} (h : Ran (some n) none f g) : g.isLive n = false := by
  by_contra hlive
  rw [Bool.not_eq_false] at hlive
  obtain ⟨t, ht, -⟩ := isLive_iff.1 hlive
  obtain ⟨l, hl, -⟩ := h.stopped hlive t ht
  cases hl

theorem Rests.waits_settle (hf : f.Rests) : Waits f f.settle := by
  have hordered := hf.ordered.perform .settle
  cases hn : f.owned with
  | none => simpa only [settle_of_not_owned hn] using hf.stays hn
  | some n =>
    simp only [perform, settle_of_owned hn] at hordered ⊢
    have h := ran_run (some n) none hf.toTimely f.turnsLeft_le_work
    exact h.waits_ended hf hn hordered h.isLive_eq_false

theorem Rests.waits_settleWithin (hf : f.Rests) (ms : Nat) : Waits f (f.settleWithin ms).2 := by
  have hordered := hf.ordered.perform (.settleWithin ms)
  cases hn : f.owned with
  | none => simpa only [settleWithin_of_not_owned hn] using hf.stays hn
  | some n =>
    simp only [perform, settleWithin_of_owned hn] at hordered ⊢
    have h := ran_run (some n) (some (f.now + ms)) hf.toTimely f.turnsLeft_le_work
    split
    · rename_i hlive
      rw [if_pos hlive] at hordered
      have hbeyond : ∀ t ∈ (run (some n) (some (f.now + ms)) f.work f).tasks,
          f.now + ms < t.due := by
        intro t ht
        obtain ⟨l, hl, hlt⟩ := h.stopped hlive t ht
        exact Option.some.inj hl ▸ hlt
      exact h.waits hf hordered (h.bounded _ rfl (by omega)) (Or.inl rfl)
        (fun t ht => Nat.le_of_lt (hbeyond t ht)) fun t ht _ => hbeyond t ht
    · rename_i hlive
      rw [if_neg hlive] at hordered
      exact h.waits_ended hf hn hordered (Bool.not_eq_true _ ▸ hlive)

theorem Rests.waits (hf : f.Rests) {step : Step} (hstep : step.begins = false) :
    Waits f (f.perform step).2 := by
  cases step with
  | schedule request => cases hstep
  | clear => cases hstep
  | advance ms => exact hf.waits_advance ms
  | settle => exact hf.waits_settle
  | settleWithin ms => exact hf.waits_settleWithin ms

/-! ## Runs -/

theorem abort_now (f : Fetcher) : f.abort.now = f.now := by
  unfold abort; split <;> rfl

theorem abort_owned (f : Fetcher) : f.abort.owned = none := by
  unfold abort
  split
  · assumption
  · rfl

theorem abort_debounce (f : Fetcher) : f.abort.debounce = f.debounce := by
  unfold abort; split <;> rfl

theorem abort_generation (f : Fetcher) : f.abort.generation = f.generation := by
  unfold abort; split <;> rfl

theorem Timely.abort (hf : f.Timely) : f.abort.Timely := by
  unfold Fetcher.abort
  split
  · exact hf
  · exact ⟨nodup_drop hf.distinct _, fun t ht => hf.ahead t (mem_drop.1 ht).1⟩

/-- The debounce timer of a request that is scheduled now. -/
def timer (f : Fetcher) (request : Request) : Task :=
  ⟨f.generation + 1, request, .debouncing, f.now + f.debounce⟩

theorem schedule_tasks (f : Fetcher) (request : Request) :
    (f.schedule request).tasks = f.abort.tasks ++ [f.timer request] := by
  simp [schedule, supersede, timer, abort_now, abort_debounce]

theorem timer_mem_schedule (f : Fetcher) (request : Request) :
    f.timer request ∈ (f.schedule request).tasks := by
  simp [schedule_tasks]

theorem Rests.schedule (hf : f.Rests) (request : Request) : (f.schedule request).Rests where
  distinct := by
    rw [schedule_tasks, List.map_append]
    refine List.nodup_append.2 ⟨hf.toTimely.abort.distinct, List.nodup_singleton _, ?_⟩
    intro n hn m hm
    obtain ⟨t, ht, rfl⟩ := List.mem_map.1 hn
    have hbegun := hf.ordered.begun t (mem_of_mem_abort ht)
    simp only [List.map_cons, List.map_nil, List.mem_singleton, timer] at hm
    omega
  ahead := by
    rw [schedule_tasks]
    intro t ht
    change f.abort.now ≤ t.due
    rw [abort_now]
    rcases List.mem_append.1 ht with ht | ht
    · exact hf.ahead t (mem_of_mem_abort ht)
    · rw [List.mem_singleton.1 ht]
      exact Nat.le_add_right _ _
  ordered := hf.ordered.perform (.schedule request)
  mine _ hn := (Option.some.inj hn).symm
  future := nofun

theorem Rests.clear (hf : f.Rests) : f.clear.Rests where
  distinct := hf.toTimely.abort.distinct
  ahead := hf.toTimely.abort.ahead
  ordered := hf.ordered.perform .clear
  mine n hn := by
    change f.abort.owned = some n at hn
    rw [abort_owned] at hn
    cases hn
  future _ t ht hg := by
    have hbegun := hf.ordered.begun t (mem_of_mem_abort ht)
    change t.generation = f.generation + 1 at hg
    omega

theorem Rests.perform (hf : f.Rests) (step : Step) : (f.perform step).2.Rests := by
  cases step with
  | schedule request => exact hf.schedule request
  | clear => exact hf.clear
  | advance ms => exact (hf.waits_advance ms).rests
  | settle => exact hf.waits_settle.rests
  | settleWithin ms => exact (hf.waits_settleWithin ms).rests

theorem performAll_cons (f : Fetcher) (step : Step) (steps : List Step) :
    f.performAll (step :: steps) = (f.perform step).2.performAll steps := rfl

theorem performAll_append (f : Fetcher) (before after : List Step) :
    f.performAll (before ++ after) = (f.performAll before).performAll after := by
  simp only [performAll, List.foldl_append]

theorem Rests.performAll (hf : f.Rests) (steps : List Step) : (f.performAll steps).Rests := by
  induction steps generalizing f with
  | nil => exact hf
  | cons step steps ih => exact ih (hf.perform step)

theorem Waits.performAll (hg : Waits f g) {waited : List Step}
    (hwaited : ∀ step ∈ waited, step.begins = false) : Waits f (g.performAll waited) := by
  induction waited generalizing g with
  | nil => exact hg
  | cons step waited ih =>
    have hstep := hg.rests.waits (hwaited step List.mem_cons_self)
    exact ih (hg.trans hstep) fun s hs => hwaited s (List.mem_cons_of_mem _ hs)

theorem Rests.waitsAll (hf : f.Rests) {waited : List Step} (hne : waited ≠ [])
    (hwaited : ∀ step ∈ waited, step.begins = false) : Waits f (f.performAll waited) := by
  cases waited with
  | nil => exact absurd rfl hne
  | cons step waited =>
    have hstep := hf.waits (hwaited step List.mem_cons_self)
    exact hstep.performAll fun s hs => hwaited s (List.mem_cons_of_mem _ hs)

theorem rests_fresh (provider : Provider) (debounce : Nat) : Rests { provider, debounce } where
  distinct := List.nodup_nil
  ahead := by simp
  ordered := ordered_fresh provider debounce
  mine := nofun
  future := by simp

end TreeShell.Suggest.Fetcher
