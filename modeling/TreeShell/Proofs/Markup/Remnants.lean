import TreeShell.Proofs.Markup.Scanning
import TreeShell.Proofs.Markup.Stripping

/-! # Escapes that stripping leaves behind

Stripping goes over a text once. Where escapes stand between the characters of another escape,
taking them away brings these characters together, and an escape is left in the stripped text.
That is the only way in which one is left. -/

namespace TreeShell.Markup

/-- Whether an escape stands in the text. -/
def HasEscape (text : String) : Prop := ∃ i code length, EscapeAt text.toList i code length

/-- The characters that stripping leaves. -/
def bare (cs : List Char) : List Char := (marks 0 cs).filterMap Mark.char?

variable {code : Nat} {c : Char} {cs ds es rest plain : List Char} {text : String}

theorem toList_strip (text : String) : (strip text).toList = bare text.toList := by
  rw [strip, String.toList_ofList, bare]

theorem bare_escape (h : IsEscape code es) (rest : List Char) : bare (es ++ rest) = bare rest := by
  rw [bare, marks_escape h]
  rfl

theorem bare_char (h : escape? (c :: cs) = none) : bare (c :: cs) = c :: bare cs := by
  rw [bare, marks_char h]
  rfl

theorem bare_append_escape (cs rest : List Char) :
    bare (cs ++ '\x1b' :: rest) = bare cs ++ bare ('\x1b' :: rest) := by
  rw [bare, marks_append_cons (fun h => h.escape_not_mem_tail), List.filterMap_append]
  rfl

/-! ## Texts without escapes -/

/-- Stripping changes a text exactly when an escape stands in it. -/
theorem bare_eq_self_iff : bare cs = cs ↔ ∀ i code length, ¬ EscapeAt cs i code length := by
  induction cs using scan_induction with
  | nil => exact ⟨fun _ => not_escapeAt_nil, fun _ => rfl⟩
  | @escape code es rest hes ih =>
    rw [bare_escape hes]
    constructor
    · intro h
      have hshort : (bare rest).length ≤ rest.length := (filterMap_marks_sublist rest).length_le
      obtain ⟨inner, rfl, -, -⟩ := hes.exists_inner
      rw [h, List.length_append, List.length_cons] at hshort
      omega
    · intro h
      exact absurd ((escapeAt_append_iff hes).2 (.inl ⟨rfl, rfl, rfl⟩)) (h 0 code es.length)
  | @char c rest hc ih =>
    rw [bare_char hc, List.cons.injEq, and_iff_right rfl, ih]
    constructor
    · rintro h i code length hat
      obtain ⟨k, -, hrest⟩ := (escapeAt_cons_iff hc).1 hat
      exact h k code length hrest
    · intro h i code length hat
      exact h (i + 1) code length ((escapeAt_cons_iff hc).2 ⟨i, rfl, hat⟩)

theorem strip_eq_self_iff (text : String) : strip text = text ↔ ¬ HasEscape text := by
  rw [← String.toList_inj, toList_strip, bare_eq_self_iff]
  simp [HasEscape]

theorem marks_of_bare_eq_self (h : bare cs = cs) : marks 0 cs = cs.map Mark.char := by
  induction cs using scan_induction with
  | nil => rfl
  | @escape code es rest hes ih =>
    exact absurd ((escapeAt_append_iff hes).2 (.inl ⟨rfl, rfl, rfl⟩))
      (bare_eq_self_iff.1 h 0 code es.length)
  | char hc ih =>
    rw [bare_char hc] at h
    rw [marks_char hc, ih (List.cons.inj h).2, List.map_cons]

theorem color_of_not_hasEscape (h : ¬ HasEscape text) : ∀ s ∈ segments text, s.color = none := by
  have hbare : bare text.toList = text.toList := by
    rw [← toList_strip, (strip_eq_self_iff text).2 h]
  have hmarks := marks_of_bare_eq_self hbare
  rw [segments_eq_shade, hmarks, ← List.append_nil (text.toList.map Mark.char),
    shade_chars_append none _ rfl, shade_nil, List.append_nil]
  intro s hs
  rw [List.mem_singleton.1 (List.mem_filter.1 hs).1]

/-! ## Characters with escapes between them -/

/-- `cs` is written from the characters `plain` with whole escapes before, between and after. -/
inductive Woven : (plain cs : List Char) → Prop where
  | nil : Woven [] []
  | char (c : Char) {plain cs : List Char} (h : Woven plain cs) : Woven (c :: plain) (c :: cs)
  | escape {code : Nat} {es plain cs : List Char} (hes : IsEscape code es) (h : Woven plain cs) :
    Woven plain (es ++ cs)

theorem Woven.append (h : Woven plain cs) {others : List Char} (h' : Woven others ds) :
    Woven (plain ++ others) (cs ++ ds) := by
  induction h with
  | nil => exact h'
  | char c h ih => exact .char c ih
  | escape hes h ih =>
    rw [List.append_assoc]
    exact .escape hes ih

theorem woven_bare (cs : List Char) : Woven (bare cs) cs := by
  induction cs using scan_induction with
  | nil => exact .nil
  | escape hes ih =>
    rw [bare_escape hes]
    exact .escape hes ih
  | char hc ih =>
    rw [bare_char hc]
    exact .char _ ih

/-- Stripping undoes the weaving where no character could start an escape. -/
theorem Woven.bare_append (h : Woven plain cs) (hplain : '\x1b' ∉ plain) (rest : List Char) :
    bare (cs ++ rest) = plain ++ bare rest := by
  induction h with
  | nil => rfl
  | char c h ih =>
    rw [List.mem_cons, not_or] at hplain
    rw [List.cons_append, bare_char (escape?_cons_of_ne (Ne.symm hplain.1) _), ih hplain.2,
      List.cons_append]
  | escape hes h ih => rw [List.append_assoc, bare_escape hes, ih hplain]

/-- What is woven is the same characters or has the first of them up to an ESC. -/
theorem Woven.cases_escape (h : Woven plain cs) :
    cs = plain ∨ ∃ front back, front <+: plain ∧ cs = front ++ '\x1b' :: back := by
  induction h with
  | nil => exact .inl rfl
  | char c h ih =>
    rcases ih with rfl | ⟨front, back, hfront, rfl⟩
    · exact .inl rfl
    · exact .inr ⟨c :: front, back, List.cons_prefix_cons.2 ⟨rfl, hfront⟩, rfl⟩
  | @escape code es plain cs hes h ih =>
    obtain ⟨inner, rfl, -, -⟩ := hes.exists_inner
    exact .inr ⟨[], inner ++ ['m'] ++ cs, List.nil_prefix, rfl⟩

/-- A single character with escapes around it. -/
theorem Woven.exists_of_singleton (h : Woven [c] cs) :
    ∃ before after, cs = before ++ c :: after ∧ Woven [] before ∧ Woven [] after := by
  generalize hplain : [c] = plain at h
  induction h with
  | nil => cases hplain
  | char d h ih =>
    obtain ⟨rfl, rfl⟩ := List.cons.inj hplain
    exact ⟨[], _, rfl, .nil, h⟩
  | escape hes h ih =>
    obtain ⟨before, after, rfl, hbefore, hafter⟩ := ih hplain
    exact ⟨_ ++ before, after, (List.append_assoc _ _ _).symm, .escape hes hbefore, hafter⟩

/-- What is left of a text can be cut anywhere, and the text with it. -/
theorem exists_cut_of_bare {front back : List Char} (h : bare cs = front ++ back) :
    ∃ before after, cs = before ++ after ∧ bare before = front ∧ bare after = back := by
  induction cs using scan_induction generalizing front with
  | nil =>
    obtain ⟨rfl, rfl⟩ := List.append_eq_nil_iff.1 h.symm
    exact ⟨[], [], rfl, rfl, rfl⟩
  | escape hes ih =>
    rw [bare_escape hes] at h
    obtain ⟨before, after, rfl, hbefore, hafter⟩ := ih h
    exact ⟨_ ++ before, after, (List.append_assoc _ _ _).symm, by rw [bare_escape hes, hbefore],
      hafter⟩
  | @char c rest hc ih =>
    cases front with
    | nil => exact ⟨[], c :: rest, rfl, rfl, h⟩
    | cons d front =>
      rw [bare_char hc, List.cons_append, List.cons.injEq] at h
      obtain ⟨rfl, h⟩ := h
      obtain ⟨before, after, rfl, hbefore, hafter⟩ := ih h
      refine ⟨c :: before, after, rfl, ?_, hafter⟩
      -- An escape at the start of `before` would be one of the whole text.
      have hnone : escape? (c :: before) = none := by
        rw [escape?_eq_none_iff] at hc ⊢
        exact fun code es hes hlead => hc code es hes (hlead.trans (List.prefix_append _ _))
      rw [bare_char hnone, hbefore]

/-! ## Broken escapes -/

/-- An escape that is written with whole escapes between its characters. -/
def IsBroken (piece : List Char) : Prop :=
  ∃ code inner between, IsEscape code ('\x1b' :: (inner ++ ['m'])) ∧ Woven inner between ∧
    between ≠ inner ∧ piece = '\x1b' :: (between ++ ['m'])

variable {piece : List Char}

/-- No escape starts where a broken one does. -/
theorem escape?_of_woven {inner between : List Char}
    (hes : IsEscape code ('\x1b' :: (inner ++ ['m']))) (h : Woven inner between)
    (hne : between ≠ inner) (rest : List Char) : escape? ('\x1b' :: (between ++ rest)) = none := by
  rcases h.cases_escape with rfl | ⟨front, back, hfront, rfl⟩
  · exact absurd rfl hne
  rw [escape?_eq_none_iff]
  intro other found hother hlead
  obtain ⟨middle, rfl, hmiddle, -⟩ := hother.exists_inner
  have hclosed : middle ++ ['m'] <+: front ++ '\x1b' :: (back ++ rest) := by
    simpa using (List.cons_prefix_cons.1 hlead).2
  have hopened : front ++ ['\x1b'] <+: front ++ '\x1b' :: (back ++ rest) :=
    ⟨back ++ rest, by simp⟩
  -- Either the other escape has the ESC that follows `front`, or its `m` stands in `inner`.
  rcases List.prefix_or_prefix_of_prefix hopened hclosed with hlong | hshort
  · have hmem := hlong.subset (List.mem_append_right front List.mem_cons_self)
    simp [hmiddle] at hmem
  · have hmem := hshort.subset (List.mem_append_right middle List.mem_cons_self)
    have hm : 'm' ∈ front := by simpa using hmem
    exact hes.not_mem_inner.2 (hfront.subset hm)

/-- Stripping makes a whole escape of a broken one. -/
theorem IsBroken.bare_append (h : IsBroken piece) (rest : List Char) :
    ∃ code es, IsEscape code es ∧ bare (piece ++ rest) = es ++ bare rest := by
  obtain ⟨code, inner, between, hes, hwoven, hne, rfl⟩ := h
  refine ⟨code, _, hes, ?_⟩
  have hm : bare ('m' :: rest) = 'm' :: bare rest := bare_char (escape?_cons_of_ne (by decide) rest)
  rw [List.cons_append, List.append_assoc, bare_char (escape?_of_woven hes hwoven hne _),
    hwoven.bare_append hes.not_mem_inner.1, List.singleton_append, hm]
  simp

/-- Where an escape is all that stripping leaves, it was broken. -/
theorem exists_isBroken (hes : IsEscape code es) (h : bare cs = es) :
    ∃ piece, IsBroken piece ∧ piece <:+: cs := by
  obtain ⟨inner, rfl, -, -⟩ := hes.exists_inner
  change bare cs = ['\x1b'] ++ (inner ++ ['m']) at h
  obtain ⟨first, others, rfl, hfirst, hothers⟩ := exists_cut_of_bare h
  obtain ⟨middle, last, rfl, hmiddle, hlast⟩ := exists_cut_of_bare hothers
  obtain ⟨before, left, rfl, hbefore, hleft⟩ := (hfirst ▸ woven_bare first).exists_of_singleton
  obtain ⟨right, after, rfl, hright, hafter⟩ := (hlast ▸ woven_bare last).exists_of_singleton
  have hwoven : Woven inner (left ++ (middle ++ right)) := by
    have hinner := hleft.append ((hmiddle ▸ woven_bare middle).append hright)
    rwa [List.nil_append, List.append_nil] at hinner
  refine ⟨_, ⟨code, inner, _, hes, hwoven, ?_, rfl⟩, before, after, by simp⟩
  -- Otherwise the escape would have been whole, and nothing of it would be left.
  intro hwhole
  have hnothing : bare (before ++ (('\x1b' :: (inner ++ ['m'])) ++ after)) = [] := by
    rw [hbefore.bare_append List.not_mem_nil, bare_escape hes, List.nil_append,
      ← List.append_nil after, hafter.bare_append List.not_mem_nil]
    rfl
  have hsame : before ++ '\x1b' :: left ++ (middle ++ (right ++ 'm' :: after)) =
      before ++ (('\x1b' :: (inner ++ ['m'])) ++ after) := by
    rw [← hwhole]
    simp
  rw [hsame, hnothing] at h
  cases h

/-- No broken escape stands in the text. -/
def IsWhole (text : String) : Prop := ∀ piece, IsBroken piece → ¬ piece <:+: text.toList

/-- Stripping leaves an escape exactly where it meets a broken one. -/
theorem hasEscape_strip_iff (text : String) :
    HasEscape (strip text) ↔ ∃ piece, IsBroken piece ∧ piece <:+: text.toList := by
  constructor
  · rintro ⟨i, code, length, es, hes, -, back, hback⟩
    rw [toList_strip] at hback
    have hcut : bare text.toList = (bare text.toList).take i ++ (es ++ back) := by
      rw [hback, List.take_append_drop]
    obtain ⟨before, others, htext, -, hothers⟩ := exists_cut_of_bare hcut
    obtain ⟨middle, after, rfl, hmiddle, -⟩ := exists_cut_of_bare hothers
    obtain ⟨piece, hpiece, hinfix⟩ := exists_isBroken hes hmiddle
    refine ⟨piece, hpiece, hinfix.trans ⟨before, after, ?_⟩⟩
    rw [htext, List.append_assoc]
  · rintro ⟨piece, hpiece, before, after, htext⟩
    obtain ⟨code, es, hes, hbare⟩ := hpiece.bare_append after
    refine ⟨(bare before).length, code, es.length, es, hes, rfl, bare after, ?_⟩
    obtain ⟨_, _, between, -, -, -, rfl⟩ := hpiece
    rw [toList_strip, ← htext, List.append_assoc, List.cons_append, bare_append_escape,
      List.drop_left, ← List.cons_append, hbare]

/-- Stripping removes all markup, once and for all, exactly from the texts that have no broken
escape. -/
theorem strips_all_iff (text : String) :
    (¬ HasEscape (strip text) ↔ IsWhole text) ∧
      (strip (strip text) = strip text ↔ IsWhole text) ∧
        (IsWhole text → ∀ s ∈ segments (strip text), s.color = none) := by
  have hwhole : ¬ HasEscape (strip text) ↔ IsWhole text := by
    rw [hasEscape_strip_iff]
    simp [IsWhole]
  exact ⟨hwhole, (strip_eq_self_iff (strip text)).trans hwhole,
    fun h => color_of_not_hasEscape (hwhole.2 h)⟩

/-- An escape between the digits of another one is taken out, and the digits come together: the
stripped text has an escape, would be stripped further and is shown in color. -/
theorem not_every_text_stripped : (¬ ∀ text, ¬ HasEscape (strip text)) ∧
    (¬ ∀ text, strip (strip text) = strip text) ∧
      ¬ ∀ text, ∀ s ∈ segments (strip text), s.color = none := by
  have hstrip : strip "\x1b[3\x1b[31m1mx" = "\x1b[31mx" := by decide +kernel
  have hagain : strip "\x1b[31mx" ≠ "\x1b[31mx" := by decide +kernel
  have hred : ⟨some .red, "x"⟩ ∈ segments "\x1b[31mx" := by decide +kernel
  refine ⟨fun h => ?_, fun h => ?_, fun h => ?_⟩
  · have hnone := h "\x1b[3\x1b[31m1mx"
    rw [hstrip] at hnone
    exact hagain ((strip_eq_self_iff _).2 hnone)
  · have hsame := h "\x1b[3\x1b[31m1mx"
    rw [hstrip] at hsame
    exact hagain hsame
  · have hcolor := h "\x1b[3\x1b[31m1mx"
    rw [hstrip] at hcolor
    cases hcolor _ hred

end TreeShell.Markup
