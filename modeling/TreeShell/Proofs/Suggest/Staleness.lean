import TreeShell.Proofs.Suggest.Moves

/-! # No stale suggestions

Every task that has not ended was begun at or before the current generation, and none of them
has published yet. Along all sequences of moves this keeps the suggestions current: they change
only when they are cleared or when the task of the generation that counts at that moment
publishes, and generations publish in their order. -/

namespace TreeShell.Suggest

/-- The generation that an event publishes for. -/
def Event.publisher? : Event → Option Nat
  | .published generation _ => some generation
  | _ => none

/-- The suggestions that are shown after the events. -/
def Event.shown (latest : List String) : List Event → List String
  | [] => latest
  | .asked _ _ :: events => shown latest events
  | .published _ suggestions :: events => shown suggestions events
  | .cleared :: events => shown [] events

theorem Event.shown_append (latest : List String) (before after : List Event) :
    shown latest (before ++ after) = shown (shown latest before) after := by
  induction before generalizing latest with
  | nil => rfl
  | cons e before ih => cases e <;> exact ih _

theorem Event.shown_cases (latest : List String) (events : List Event) :
    shown latest events = latest ∨ shown latest events = [] ∨
      ∃ n, Event.published n (shown latest events) ∈ events := by
  induction events generalizing latest with
  | nil => exact Or.inl rfl
  | cons e events ih =>
    cases e with
    | asked n request =>
      rcases ih latest with h | h | ⟨k, h⟩
      · exact Or.inl h
      · exact Or.inr (Or.inl h)
      · exact Or.inr (Or.inr ⟨k, List.mem_cons_of_mem _ h⟩)
    | published n suggestions =>
      right
      rcases ih suggestions with h | h | ⟨k, h⟩
      · exact Or.inr ⟨n, by rw [shown, h]; exact List.mem_cons_self⟩
      · exact Or.inl h
      · exact Or.inr ⟨k, List.mem_cons_of_mem _ h⟩
    | cleared =>
      right
      rcases ih [] with h | h | ⟨k, h⟩
      · exact Or.inl h
      · exact Or.inl h
      · exact Or.inr ⟨k, List.mem_cons_of_mem _ h⟩

/-- The generations that publish, in the order of the events. -/
def publishers (events : List Event) : List Nat := events.filterMap Event.publisher?

namespace Fetcher

/-- The events that a list of moves adds to the log. -/
def gains (f : Fetcher) : List Move → List Event
  | [] => []
  | m :: moves => (f.move m).log.drop f.log.length ++ (f.move m).gains moves

/-! ## What one move does -/

theorem move_generation (f : Fetcher) (m : Move) :
    (f.move m).generation = if m.begins then f.generation + 1 else f.generation := by
  cases m with
  | fire t =>
    rcases f.fire_cases t with ⟨-, h⟩ | ⟨-, -, h⟩ | ⟨-, -, h⟩ <;>
      simp [move, h, Move.begins, Move.step?]
  | _ => simp [move, schedule, clear, supersede, Move.begins, Move.step?]

theorem generation_le_move (f : Fetcher) (m : Move) : f.generation ≤ (f.move m).generation := by
  rw [move_generation]
  split <;> omega

theorem generation_moveAll (f : Fetcher) (moves : List Move) :
    (f.moveAll moves).generation = f.generation + moves.countP Move.begins := by
  induction moves generalizing f with
  | nil => rfl
  | cons m moves ih =>
    rw [moveAll_cons, ih, move_generation, List.countP_cons]
    split <;> omega

theorem generation_le_moveAll (f : Fetcher) (moves : List Move) :
    f.generation ≤ (f.moveAll moves).generation := by
  rw [generation_moveAll]
  omega

theorem generation_moveAll_eq_iff {f : Fetcher} {moves : List Move} :
    (f.moveAll moves).generation = f.generation ↔ ∀ m ∈ moves, m.begins = false := by
  have hcount : moves.countP Move.begins = 0 ↔ ∀ m ∈ moves, m.begins = false := by simp
  rw [generation_moveAll, ← hcount]
  omega

/-- A task that has not ended was there before, perhaps with its question still to ask, or belongs
to the generation just begun. -/
theorem mem_move_tasks {f : Fetcher} {m : Move} {u : Task} (hm : f.Allows m)
    (hu : u ∈ (f.move m).tasks) :
    (∃ t ∈ f.tasks, t.generation = u.generation ∧ t.request = u.request ∧
        (u.phase = .debouncing → t = u)) ∨
      (m = .schedule u.request ∧ u.generation = f.generation + 1) := by
  cases m with
  | schedule request =>
    simp only [move, schedule, supersede, List.mem_append, List.mem_singleton] at hu
    rcases hu with hu | rfl
    · exact Or.inl ⟨u, mem_of_mem_abort hu, rfl, rfl, fun _ => rfl⟩
    · exact Or.inr ⟨rfl, rfl⟩
  | clear => exact Or.inl ⟨u, mem_of_mem_abort hu, rfl, rfl, fun _ => rfl⟩
  | fire t =>
    left
    rcases f.fire_cases t with ⟨-, h⟩ | ⟨-, -, h⟩ | ⟨-, -, h⟩
    · rw [move, h] at hu
      exact ⟨u, (mem_drop.1 hu).1, rfl, rfl, fun _ => rfl⟩
    · rw [move, h, List.mem_append, List.mem_singleton] at hu
      rcases hu with hu | rfl
      · exact ⟨u, (mem_drop.1 hu).1, rfl, rfl, fun _ => rfl⟩
      · refine ⟨t, hm, rfl, rfl, fun hphase => ?_⟩
        cases hphase
    · rw [move, h] at hu
      exact ⟨u, (mem_drop.1 hu).1, rfl, rfl, fun _ => rfl⟩
  | disown => exact Or.inl ⟨u, hu, rfl, rfl, fun _ => rfl⟩
  | pass moment => exact Or.inl ⟨u, hu, rfl, rfl, fun _ => rfl⟩
  | change provider => exact Or.inl ⟨u, hu, rfl, rfl, fun _ => rfl⟩

/-- No task gets ahead of the counter. -/
theorem begun_move {f : Fetcher} (hf : ∀ t ∈ f.tasks, t.generation ≤ f.generation) {m : Move}
    (hm : f.Allows m) : ∀ u ∈ (f.move m).tasks, u.generation ≤ (f.move m).generation := by
  intro u hu
  rcases mem_move_tasks hm hu with ⟨t, ht, hg, -⟩ | ⟨rfl, hg⟩
  · exact hg ▸ Nat.le_trans (hf t ht) (f.generation_le_move m)
  · simp [move_generation, Move.begins, Move.step?, hg]

/-- A generation whose task has ended gets no other. -/
theorem generation_ne_move {f : Fetcher} {m : Move} (hm : f.Allows m) {n : Nat}
    (hn : n ≤ f.generation) (hended : ∀ t ∈ f.tasks, t.generation ≠ n) :
    ∀ u ∈ (f.move m).tasks, u.generation ≠ n := by
  intro u hu
  rcases mem_move_tasks hm hu with ⟨t, ht, hg, -⟩ | ⟨-, hg⟩
  · exact hg ▸ hended t ht
  · omega

theorem generation_ne_moveAll {f : Fetcher} {moves : List Move} (h : f.Admits moves) {n : Nat}
    (hn : n ≤ f.generation) (hended : ∀ t ∈ f.tasks, t.generation ≠ n) :
    ∀ u ∈ (f.moveAll moves).tasks, u.generation ≠ n := by
  induction moves generalizing f with
  | nil => exact hended
  | cons m moves ih =>
    exact ih h.2 (Nat.le_trans hn (f.generation_le_move m)) (generation_ne_move h.1 hn hended)

/-- A move leaves the suggestions alone, or clears them, or lets the task of the current
generation publish; that task has then ended. -/
theorem move_cases {f : Fetcher} {m : Move} (hm : f.Allows m) :
    ((f.move m).latest = f.latest ∧
      ((f.move m).log = f.log ∨ ∃ n request, (f.move m).log = f.log ++ [.asked n request])) ∨
    (m = .clear ∧ (f.move m).latest = [] ∧ (f.move m).log = f.log ++ [.cleared]) ∨
    (∃ t ∈ f.tasks, m = .fire t ∧ t.generation = f.generation ∧ (f.move m).latest = f.found t ∧
      (f.move m).log = f.log ++ [.published f.generation (f.found t)] ∧
      ∀ u ∈ (f.move m).tasks, u.generation ≠ f.generation) := by
  cases m with
  | schedule request => exact Or.inl ⟨f.abort_latest, Or.inl f.abort_log⟩
  | clear => exact Or.inr (Or.inl ⟨rfl, rfl, rfl⟩)
  | fire t =>
    rcases f.fire_cases t with ⟨-, h⟩ | ⟨-, -, h⟩ | ⟨hg, -, h⟩
    · exact Or.inl ⟨by rw [move, h], Or.inl (by rw [move, h])⟩
    · exact Or.inl ⟨by rw [move, h], Or.inr ⟨t.generation, t.request, by rw [move, h]⟩⟩
    · refine Or.inr (Or.inr ⟨t, hm, rfl, hg, by rw [move, h], by rw [move, h, hg], ?_⟩)
      intro u hu
      rw [move, h, hg] at hu
      exact (mem_drop.1 hu).2
  | disown => exact Or.inl ⟨rfl, Or.inl rfl⟩
  | pass moment => exact Or.inl ⟨rfl, Or.inl rfl⟩
  | change provider => exact Or.inl ⟨rfl, Or.inl rfl⟩

theorem log_move {f : Fetcher} {m : Move} (hm : f.Allows m) :
    (f.move m).log = f.log ++ f.gains [m] := by
  rcases move_cases hm with ⟨-, h | ⟨n, request, h⟩⟩ | ⟨-, -, h⟩ | ⟨t, -, -, -, -, h, -⟩ <;>
    simp [gains, h]

theorem latest_move {f : Fetcher} {m : Move} (hm : f.Allows m) :
    (f.move m).latest = Event.shown f.latest (f.gains [m]) := by
  rcases move_cases hm with ⟨hl, h | ⟨n, request, h⟩⟩ | ⟨-, hl, h⟩ | ⟨t, -, -, -, hl, h, -⟩ <;>
    simp [gains, h, hl, Event.shown]

/-- Whatever a move publishes, it publishes for the generation that counts. -/
theorem published_of_mem_gains {f : Fetcher} {m : Move} (hm : f.Allows m) {n : Nat}
    {suggestions : List String} (h : Event.published n suggestions ∈ f.gains [m]) :
    n = f.generation ∧ ∃ t ∈ f.tasks, m = .fire t ∧ t.generation = n := by
  rcases move_cases hm with ⟨-, hl | ⟨k, request, hl⟩⟩ | ⟨-, -, hl⟩ | ⟨t, ht, rfl, hg, -, hl, -⟩
  · simp [gains, hl] at h
  · simp [gains, hl] at h
  · simp [gains, hl] at h
  · simp only [gains, hl, List.drop_left, List.append_nil, List.mem_singleton,
      Event.published.injEq] at h
    exact ⟨h.1, t, ht, rfl, hg.trans h.1.symm⟩

/-! ## What a list of moves does -/

theorem gains_append (f : Fetcher) (before after : List Move) :
    f.gains (before ++ after) = f.gains before ++ (f.moveAll before).gains after := by
  induction before generalizing f with
  | nil => rfl
  | cons m before ih => simp [gains, ih]

theorem gains_cons (f : Fetcher) (m : Move) (moves : List Move) :
    f.gains (m :: moves) = f.gains [m] ++ (f.move m).gains moves :=
  f.gains_append [m] moves

theorem log_moveAll {f : Fetcher} {moves : List Move} (h : f.Admits moves) :
    (f.moveAll moves).log = f.log ++ f.gains moves := by
  induction moves generalizing f with
  | nil => simp [gains]
  | cons m moves ih => rw [moveAll_cons, ih h.2, log_move h.1, f.gains_cons m moves, List.append_assoc]

theorem latest_moveAll {f : Fetcher} {moves : List Move} (h : f.Admits moves) :
    (f.moveAll moves).latest = Event.shown f.latest (f.gains moves) := by
  induction moves generalizing f with
  | nil => rfl
  | cons m moves ih =>
    rw [moveAll_cons, ih h.2, latest_move h.1, f.gains_cons m moves, Event.shown_append]

/-- The counter never goes back, so nothing older than it is published later. -/
theorem generation_le_of_published {f : Fetcher} {moves : List Move} (h : f.Admits moves) {n : Nat}
    {suggestions : List String} (hp : Event.published n suggestions ∈ f.gains moves) :
    f.generation ≤ n := by
  induction moves generalizing f with
  | nil => simp [gains] at hp
  | cons m moves ih =>
    rw [f.gains_cons m moves, List.mem_append] at hp
    rcases hp with hp | hp
    · exact Nat.le_of_eq (published_of_mem_gains h.1 hp).1.symm
    · exact Nat.le_trans (f.generation_le_move m) (ih h.2 hp)

/-- A generation that has begun and whose task has ended publishes nothing any more. -/
theorem not_published_of_ended {f : Fetcher} {moves : List Move} (h : f.Admits moves) {n : Nat}
    (hn : n ≤ f.generation) (hended : ∀ t ∈ f.tasks, t.generation ≠ n) (suggestions : List String) :
    Event.published n suggestions ∉ f.gains moves := by
  induction moves generalizing f with
  | nil => simp [gains]
  | cons m moves ih =>
    rw [f.gains_cons m moves, List.mem_append, not_or]
    refine ⟨fun hp => ?_, ih h.2 (Nat.le_trans hn (f.generation_le_move m)) ?_⟩
    · obtain ⟨-, t, ht, -, hg⟩ := published_of_mem_gains h.1 hp
      exact hended t ht hg
    · exact generation_ne_move h.1 hn hended

/-- What is published for a generation still to come is published by the task of a schedule that
begins this generation. -/
theorem exists_schedule_of_published {f : Fetcher} {moves : List Move} (h : f.Admits moves)
    {n : Nat} {suggestions : List String} (hbegun : ∀ t ∈ f.tasks, t.generation ≤ f.generation)
    (hn : f.generation < n) (hp : Event.published n suggestions ∈ f.gains moves) :
    ∃ before request after, moves = before ++ .schedule request :: after ∧
      (f.moveAll (before ++ [.schedule request])).generation = n ∧
      Event.published n suggestions ∈ (f.moveAll (before ++ [.schedule request])).gains after := by
  induction moves generalizing f with
  | nil => simp [gains] at hp
  | cons m moves ih =>
    rw [f.gains_cons m moves, List.mem_append] at hp
    have hlater : Event.published n suggestions ∈ (f.move m).gains moves := by
      rcases hp with hp | hp
      · have := (published_of_mem_gains h.1 hp).1
        omega
      · exact hp
    have hgen := f.move_generation m
    have hbegun' := begun_move hbegun h.1
    by_cases hnow : n ≤ (f.move m).generation
    · cases m with
      | schedule request =>
        refine ⟨[], request, moves, rfl, ?_, hlater⟩
        simp only [Move.begins, Move.step?, Option.isSome_some, if_true] at hgen
        simp only [List.nil_append, moveAll_cons, moveAll_nil]
        omega
      | clear =>
        refine absurd hlater (not_published_of_ended h.2 hnow (fun u hu => ?_) suggestions)
        have := hbegun u (mem_of_mem_abort hu)
        omega
      | _ =>
        simp [Move.begins, Move.step?] at hgen
        omega
    · obtain ⟨before, request, after, rfl, hg, hafter⟩ := ih h.2 hbegun' (by omega) hlater
      exact ⟨m :: before, request, after, rfl, hg, hafter⟩

theorem increasing_concat {ns : List Nat} {k : Nat} (h : ns.Pairwise (· < ·))
    (hle : ∀ n ∈ ns, n ≤ k) (hnew : k ∉ ns) : (ns ++ [k]).Pairwise (· < ·) := by
  refine List.pairwise_append.2 ⟨h, List.pairwise_singleton _ _, fun n hn m hm => ?_⟩
  obtain rfl := List.mem_singleton.1 hm
  exact Nat.lt_of_le_of_ne (hle n hn) fun e => hnew (e ▸ hn)

/-! ## The invariant -/

/-- No task is ahead of the counter, and no task that has not ended has published. -/
structure Ordered (f : Fetcher) : Prop where
  begun : ∀ t ∈ f.tasks, t.generation ≤ f.generation
  counted : ∀ n ∈ publishers f.log, n ≤ f.generation
  unpublished : ∀ t ∈ f.tasks, t.generation ∉ publishers f.log
  increasing : (publishers f.log).Pairwise (· < ·)

theorem publishers_move {f : Fetcher} {m : Move} (hm : f.Allows m) :
    publishers (f.move m).log = publishers f.log ∨
      ((∃ t ∈ f.tasks, t.generation = f.generation) ∧
        publishers (f.move m).log = publishers f.log ++ [f.generation] ∧
        ∀ u ∈ (f.move m).tasks, u.generation ≠ f.generation) := by
  rcases move_cases hm with ⟨-, h | ⟨n, request, h⟩⟩ | ⟨-, -, h⟩ | ⟨t, ht, -, hg, -, h, hended⟩
  · exact Or.inl (by rw [h])
  · exact Or.inl (by simp [h, publishers, Event.publisher?])
  · exact Or.inl (by simp [h, publishers, Event.publisher?])
  · exact Or.inr ⟨⟨t, ht, hg⟩, by simp [h, publishers, Event.publisher?], hended⟩

theorem Ordered.move {f : Fetcher} (hf : f.Ordered) {m : Move} (hm : f.Allows m) :
    (f.move m).Ordered := by
  have hle := f.generation_le_move m
  have hbegun := begun_move hf.begun hm
  -- A task that was there keeps quiet by the invariant, a new one has a number nobody has had.
  have hquiet : ∀ u ∈ (f.move m).tasks, u.generation ∉ publishers f.log := by
    intro u hu hmem
    rcases mem_move_tasks hm hu with ⟨t, ht, hg, -⟩ | ⟨-, hg⟩
    · exact hf.unpublished t ht (hg ▸ hmem)
    · have := hf.counted _ hmem
      omega
  rcases publishers_move hm with h | ⟨⟨t, ht, hg⟩, h, hended⟩
  · exact ⟨hbegun, fun n hn => Nat.le_trans (hf.counted n (h ▸ hn)) hle, fun u hu => h ▸ hquiet u hu,
      h ▸ hf.increasing⟩
  · have hnew : f.generation ∉ publishers f.log := hg ▸ hf.unpublished t ht
    refine ⟨hbegun, fun n hn => ?_, fun u hu => ?_, ?_⟩
    · rw [h, List.mem_append, List.mem_singleton] at hn
      rcases hn with hn | rfl
      · exact Nat.le_trans (hf.counted n hn) hle
      · exact hle
    · rw [h, List.mem_append, List.mem_singleton, not_or]
      exact ⟨hquiet u hu, hended u hu⟩
    · rw [h]
      exact increasing_concat hf.increasing hf.counted hnew

theorem Ordered.moveAll {f : Fetcher} (hf : f.Ordered) {moves : List Move} (h : f.Admits moves) :
    (f.moveAll moves).Ordered :=
  moveAll_induction (fun _ _ hg hm _ => hg.move hm) hf h fun _ _ => trivial

theorem ordered_fresh (provider : Provider) (debounce : Nat) :
    Ordered { provider, debounce } :=
  ⟨by simp, by simp [publishers], by simp, by simp [publishers]⟩

/-! ## Staleness -/

/-- Along the moves nothing out of date is ever shown. -/
structure NeverStale (f : Fetcher) (moves : List Move) : Prop where
  /-- The suggestions change by a clear or when the task of the current generation publishes. -/
  changes : ∀ before m after, moves = before ++ m :: after →
    let g := f.moveAll before
    (g.move m).latest = g.latest ∨ (m = .clear ∧ (g.move m).latest = []) ∨
      ∃ t ∈ g.tasks, m = .fire t ∧ t.generation = g.generation ∧ (g.move m).latest = g.found t ∧
        g.gains [m] = [.published t.generation (g.found t)]
  /-- After a schedule or a clear nothing of a generation up to then is published. -/
  superseded : ∀ before m after, moves = before ++ m :: after → m.begins = true →
    ∀ n suggestions, Event.published n suggestions ∈ (f.moveAll (before ++ [m])).gains after →
      (f.moveAll before).generation < n
  increasing : (publishers (f.gains moves)).Pairwise (· < ·)
  /-- From a clear on nothing is shown but what the task of a later schedule has published. -/
  cleared : ∀ before after rest, moves = before ++ .clear :: after ++ rest →
    let latest := (f.moveAll (before ++ .clear :: after)).latest
    latest = [] ∨ ∃ between request since, after = between ++ .schedule request :: since ∧
      let g := f.moveAll (before ++ .clear :: between ++ [.schedule request])
      Event.published g.generation latest ∈ g.gains since

theorem Ordered.neverStale {f : Fetcher} (hf : f.Ordered) {moves : List Move}
    (h : f.Admits moves) : f.NeverStale moves where
  changes := by
    rintro before m after rfl
    rw [admits_append] at h
    intro g
    rcases move_cases h.2.1 with ⟨hl, -⟩ | ⟨rfl, hl, -⟩ | ⟨t, ht, rfl, hg, hl, hlog, -⟩
    · exact Or.inl hl
    · exact Or.inr (Or.inl ⟨rfl, hl⟩)
    · refine Or.inr (Or.inr ⟨t, ht, rfl, hg, hl, ?_⟩)
      simp [gains, hlog, g, hg]
  superseded := by
    rintro before m after rfl hm n suggestions hp
    rw [admits_append] at h
    rw [moveAll_append] at hp
    have hle := generation_le_of_published h.2.2 hp
    rw [move_generation, if_pos hm] at hle
    exact hle
  increasing := by
    have hall := (hf.moveAll h).increasing
    rw [log_moveAll h, publishers, List.filterMap_append, List.pairwise_append] at hall
    exact hall.2.1
  cleared := by
    rintro before after rest rfl
    obtain ⟨⟨hbefore, -, hafter⟩, -⟩ := by simpa only [admits_append] using h
    have hclear := (hf.moveAll hbefore).move (m := .clear) trivial
    intro latest
    have hshown : latest = Event.shown [] (((f.moveAll before).move .clear).gains after) := by
      simp only [latest, moveAll_append, moveAll_cons, latest_moveAll hafter]
      rfl
    rcases Event.shown_cases [] (((f.moveAll before).move .clear).gains after) with h0 | h0 | ⟨n, hp⟩
    · exact Or.inl (hshown.trans h0)
    · exact Or.inl (hshown.trans h0)
    · rw [← hshown] at hp
      -- The generation of the clear itself has no task, so the publisher is a later one.
      have hn : ((f.moveAll before).move .clear).generation < n := by
        refine Nat.lt_of_le_of_ne (generation_le_of_published hafter hp) fun e => ?_
        refine not_published_of_ended hafter (Nat.le_of_eq e.symm) (fun t ht => ?_) _ hp
        have := (hf.moveAll hbefore).begun t (mem_of_mem_abort ht)
        rw [move_generation] at e
        simp only [Move.begins, Move.step?, Option.isSome_some, if_true] at e
        omega
      obtain ⟨between, request, since, rfl, rfl, hsince⟩ :=
        exists_schedule_of_published hafter hclear.begun hn hp
      exact Or.inr ⟨between, request, since, rfl, by simpa using hsince⟩

/-- However long its provider takes, whatever it answers from one moment to the next, and in
whatever order the tasks come due, a new fetcher never shows anything stale, and every run of
steps is made of moves in such an order. -/
theorem never_stale (provider : Provider) (debounce : Nat) :
    let start : Fetcher := { provider, debounce }
    (∀ moves, start.Admits moves → start.NeverStale moves) ∧
      ∀ steps, ∃ pieces, start.Plays steps pieces ∧ start.NeverStale pieces.flatten := by
  intro start
  have hstart : start.Ordered := ordered_fresh provider debounce
  refine ⟨fun moves h => hstart.neverStale h, fun steps => ?_⟩
  obtain ⟨pieces, hplays⟩ := start.exists_plays steps
  exact ⟨pieces, hplays, hstart.neverStale hplays.admitted⟩

end Fetcher

end TreeShell.Suggest
