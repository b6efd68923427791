import TreeShell.Proofs.Session.Fold

/-! # Stepping through the history

A session stands at the live prompt or some lines back in its history. A step up goes one line
further back, but not past the oldest line; a step down goes one line forward, and from the newest
line to the empty prompt. Whatever is done with a session, it never stands further back than its
history reaches, so every step finds a line. -/

namespace TreeShell.Session

variable {s : Session} {recent : List String} {k : Nat}

/-- How many lines back from the live prompt the session stands. -/
def back (s : Session) : Nat :=
  match s.cursor with
  | none => 0
  | some i => i + 1

/-- The session, standing `k` lines back. -/
def standing (s : Session) (k : Nat) : Session :=
  { s with
    cursor := match k with
      | 0 => none
      | i + 1 => some i }

@[simp] theorem back_standing (s : Session) (k : Nat) : (s.standing k).back = k := by
  cases k <;> rfl

@[simp] theorem history_standing (s : Session) (k : Nat) : (s.standing k).history = s.history := rfl

@[simp] theorem standing_standing (s : Session) (j k : Nat) :
    (s.standing j).standing k = s.standing k := rfl

@[simp] theorem standing_back (s : Session) : s.standing s.back = s := by
  obtain ⟨cwd, fs, settings, latency, window, transcript, history, cursor, notifications⟩ := s
  cases cursor <;> rfl

theorem eq_standing (h : s.back = k) : s = s.standing k := by
  rw [← h, standing_back]

/-! ## One step -/

theorem historyUp_of_nil (h : s.history = []) : s.historyUp = (none, s) := by
  simp [historyUp, h]

theorem historyUp_of_ne_nil (h : s.history ≠ []) :
    ∃ i, min (s.back + 1) s.history.length = i + 1 ∧
      s.historyUp = (s.history[i]?, s.standing (i + 1)) := by
  have hlength : 0 < s.history.length := List.length_pos_iff.2 h
  rw [historyUp, if_neg (by simpa using h), back]
  cases s.cursor with
  | none => exact ⟨0, by dsimp only; omega, rfl⟩
  | some i => exact ⟨min (i + 1) (s.history.length - 1), by dsimp only; omega, rfl⟩

theorem historyDown_of_back_zero (h : s.back = 0) : s.historyDown = (none, s) := by
  rw [eq_standing h]
  rfl

theorem historyDown_of_back_one (h : s.back = 1) : s.historyDown = (some "", s.standing 0) := by
  rw [eq_standing h]
  rfl

theorem historyDown_of_back_add_two (h : s.back = k + 2) :
    s.historyDown = (s.history[k]?, s.standing (k + 1)) := by
  rw [eq_standing h]
  rfl

theorem perform_historyUp (s : Session) :
    s.perform .historyUp = (.line s.historyUp.1, s.historyUp.2) := rfl

theorem perform_historyDown (s : Session) :
    s.perform .historyDown = (.line s.historyDown.1, s.historyDown.2) := rfl

theorem historyUp_snd (h : s.back < s.history.length) :
    s.historyUp.2 = s.standing (s.back + 1) := by
  obtain ⟨i, hi, hup⟩ := historyUp_of_ne_nil (List.ne_nil_of_length_pos (Nat.zero_lt_of_lt h))
  obtain rfl : i = s.back := by omega
  rw [hup]

theorem historyDown_snd (s : Session) : s.historyDown.2 = s.standing (s.back - 1) := by
  rcases hback : s.back with - | - | k
  · rw [historyDown_of_back_zero hback]
    exact eq_standing hback
  · rw [historyDown_of_back_one hback]
  · rw [historyDown_of_back_add_two hback]
    rfl

/-! ## The place is in the history -/

theorem back_perform_submit (line : String) (s : Session) :
    (s.perform (.submit line)).2.back =
      if (Action.submit line).line? = none then s.back else 0 := by
  rw [perform_submit, Action.line?]
  cases hblank : isBlankLine line with
  | true =>
    rw [submit_of_blank hblank]
    rfl
  | false =>
    rw [submit_of_not_blank hblank]
    rfl

theorem back_perform_of_line {a : Action} {line : String} (h : a.line? = some line) (s : Session) :
    (s.perform a).2.back = 0 := by
  cases a with
  | submit line => rw [back_perform_submit, if_neg (by rw [h]; exact Option.some_ne_none _)]
  | historyUp | historyDown | recentHistory | takeNotifications | setSettings => cases h

theorem back_perform_of_other {a : Action} (hline : a.line? = none) (hup : a ≠ .historyUp)
    (hdown : a ≠ .historyDown) (s : Session) : (s.perform a).2.back = s.back := by
  cases a with
  | submit line => rw [back_perform_submit, if_pos hline]
  | historyUp => exact absurd rfl hup
  | historyDown => exact absurd rfl hdown
  | recentHistory | takeNotifications | setSettings => rfl

/-- No action leaves a session further back than its history reaches. -/
theorem back_le_perform (h : s.back ≤ s.history.length) (a : Action) :
    (s.perform a).2.back ≤ (s.perform a).2.history.length := by
  rw [(s.adopts_perform a).history]
  cases hline : a.line? with
  | some line =>
    rw [back_perform_of_line hline]
    exact Nat.zero_le _
  | none =>
    rw [Option.toList_none, List.nil_append]
    by_cases hup : a = .historyUp
    · subst hup
      rw [perform_historyUp]
      by_cases hnil : s.history = []
      · rwa [historyUp_of_nil hnil]
      · obtain ⟨i, hi, heq⟩ := historyUp_of_ne_nil hnil
        rw [heq, back_standing, ← hi]
        exact Nat.min_le_right _ _
    · by_cases hdown : a = .historyDown
      · subst hdown
        rw [perform_historyDown, historyDown_snd, back_standing]
        exact (Nat.sub_le _ _).trans h
      · rwa [back_perform_of_other hline hup hdown]

theorem back_le_performAll (h : s.back ≤ s.history.length) (actions : List Action) :
    (s.performAll actions).2.back ≤ (s.performAll actions).2.history.length := by
  induction actions generalizing s with
  | nil => exact h
  | cons a actions ih =>
    rw [performAll_cons]
    exact ih (back_le_perform h a)

/-! ## Steps there and back -/

theorem performAll_ups {m : Nat} (h : s.back + m ≤ s.history.length) :
    (s.performAll (List.replicate m .historyUp)).2 = s.standing (s.back + m) := by
  induction m generalizing s with
  | zero => exact (standing_back s).symm
  | succ m ih =>
    rw [List.replicate_succ, performAll_cons, perform_historyUp, historyUp_snd (by omega)]
    rw [ih (by rw [back_standing, history_standing]; omega), back_standing, standing_standing]
    congr 1
    omega

theorem performAll_downs (s : Session) (m : Nat) :
    (s.performAll (List.replicate m .historyDown)).2 = s.standing (s.back - m) := by
  induction m generalizing s with
  | zero => exact (standing_back s).symm
  | succ m ih =>
    rw [List.replicate_succ, performAll_cons, perform_historyDown, historyDown_snd, ih,
      back_standing, standing_standing]
    congr 1
    omega

theorem performAll_ups_downs {m : Nat} (h : s.back + m ≤ s.history.length) :
    (s.performAll (List.replicate m .historyUp ++ List.replicate m .historyDown)).2 = s := by
  rw [performAll_append, performAll_ups h, performAll_downs, back_standing, Nat.add_sub_cancel,
    standing_standing, standing_back]

/-! ## The law of the steps -/

/-- The step leads to the `k`-th of the lines, shows it and changes nothing else. -/
def Shows (recent : List String) (k : Nat) (s : Session) (step : Reply × Session) : Prop :=
  ∃ i line, k = i + 1 ∧ recent[i]? = some line ∧ step = (.line (some line), s.standing k)

/-- How the place of a session changes that has the lines `recent` behind it, most recent first. -/
structure StepsThrough (recent : List String) (s : Session) : Prop where
  inRange : s.back ≤ recent.length
  up_nowhere : recent = [] → s.perform .historyUp = (.line none, s)
  up : recent ≠ [] → Shows recent (min (s.back + 1) recent.length) s (s.perform .historyUp)
  down_nowhere : s.back = 0 → s.perform .historyDown = (.line none, s)
  down_to_prompt : s.back = 1 → s.perform .historyDown = (.line (some ""), s.standing 0)
  down : 1 < s.back → Shows recent (s.back - 1) s (s.perform .historyDown)
  /-- A line that is interpreted leads back to the prompt. -/
  submit : ∀ a line, a.line? = some line → (s.perform a).2.back = 0
  /-- Blank lines and all other actions leave the place alone. -/
  stay : ∀ a, a.line? = none → a ≠ .historyUp → a ≠ .historyDown → (s.perform a).2.back = s.back
  there_and_back : ∀ m, s.back + m ≤ recent.length →
    (s.performAll (List.replicate m .historyUp ++ List.replicate m .historyDown)).2 = s

theorem exists_line {i : Nat} (h : i + 1 ≤ recent.length) : ∃ line, recent[i]? = some line :=
  ⟨recent[i], List.getElem?_eq_getElem h⟩

theorem stepsThrough_of_back_le (h : s.back ≤ s.history.length) : StepsThrough s.history s where
  inRange := h
  up_nowhere hnil := by rw [perform_historyUp, historyUp_of_nil hnil]
  up hne := by
    obtain ⟨i, hi, hup⟩ := historyUp_of_ne_nil hne
    obtain ⟨line, hline⟩ : ∃ line, s.history[i]? = some line := exists_line (by omega)
    exact ⟨i, line, hi, hline, by rw [perform_historyUp, hup, hline, hi]⟩
  down_nowhere hback := by rw [perform_historyDown, historyDown_of_back_zero hback]
  down_to_prompt hback := by rw [perform_historyDown, historyDown_of_back_one hback]
  down hback := by
    obtain ⟨i, hi⟩ : ∃ i, s.back = i + 2 := ⟨s.back - 2, by omega⟩
    obtain ⟨line, hline⟩ : ∃ line, s.history[i]? = some line := exists_line (by omega)
    have hone : s.back - 1 = i + 1 := by omega
    refine ⟨i, line, hone, hline, ?_⟩
    rw [perform_historyDown, historyDown_of_back_add_two hi, hline, hone]
  submit a line hline := back_perform_of_line hline s
  stay a hline hup hdown := back_perform_of_other hline hup hdown s
  there_and_back m hm := performAll_ups_downs hm

/-- After any actions a session has a place among the lines submitted to it: it starts at the live
prompt, steps are clamped to the lines there are, and steps up are undone by as many steps down. -/
theorem steps_through_history {options : SessionOptions} {s : Session} (h : create options = .ok s) :
    s.back = 0 ∧
      ∀ actions, StepsThrough (submitted actions).reverse (s.performAll actions).2 := by
  obtain rfl := eq_fresh_of_create h
  refine ⟨rfl, fun actions => ?_⟩
  have hhistory := ((fresh options).folds_performAll actions).history.trans (List.append_nil _)
  rw [← hhistory]
  exact stepsThrough_of_back_le (back_le_performAll (Nat.zero_le _) actions)

theorem steps_through_history_clamped :
    let run := standard.performAll [.submit "cd b", .submit " ", .historyDown, .submit "pwd"]
    let more := run.2.performAll [.historyUp, .historyUp, .historyUp]
    create { cwd := "/a", fs := nested } = .ok standard ∧
      more.1 = [.line (some "pwd"), .line (some "cd b"), .line (some "cd b")] ∧
      more.2.back = 2 ∧
      (more.2.perform .historyDown).1 = .line (some "pwd") ∧
      (run.2.performAll [.historyUp, .historyUp, .historyDown, .historyDown]).2 = run.2 := by
  intro run more
  obtain ⟨-, hsteps⟩ := steps_through_history create_standard
  have hrun := hsteps [.submit "cd b", .submit " ", .historyDown, .submit "pwd"]
  have hmore := hsteps [.submit "cd b", .submit " ", .historyDown, .submit "pwd", .historyUp,
    .historyUp, .historyUp]
  refine ⟨create_standard, rfl, rfl, ?_, hrun.there_and_back 2 (by decide)⟩
  obtain ⟨i, line, hi, hline, hstep⟩ := hmore.down (by decide)
  obtain rfl : 0 = i := Nat.succ.inj hi
  obtain rfl : "pwd" = line := Option.some.inj hline
  exact congrArg Prod.fst hstep

end TreeShell.Session
