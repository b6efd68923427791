import TreeShell.Markup.Segment

/-! # How a text is scanned for escapes

An escape starts with ESC and has no other one. The scan of a text takes a whole escape or a
character that starts none at a time, and so meets every escape that stands in the text. What it
finds before a character that no escape has after its first does not depend on what follows. -/

namespace TreeShell.Markup

/-- The characters of an escape with the given code. -/
inductive IsEscape : (code : Nat) → List Char → Prop where
  | one {a : Char} (ha : a.isDigit = true) :
    IsEscape (a.toNat - '0'.toNat) ['\x1b', '[', a, 'm']
  | two {a b : Char} (ha : a.isDigit = true) (hb : b.isDigit = true) :
    IsEscape (10 * (a.toNat - '0'.toNat) + (b.toNat - '0'.toNat)) ['\x1b', '[', a, b, 'm']

variable {code length : Nat} {c d : Char} {cs es rest : List Char}

theorem escape?_eq_some_iff : escape? cs = some (code, length) ↔
    ∃ es rest, IsEscape code es ∧ es.length = length ∧ cs = es ++ rest := by
  constructor
  · intro h
    unfold escape? at h
    split at h
    · rename_i a rest
      split at h
      · rename_i ha
        obtain ⟨rfl, rfl⟩ := Prod.mk.inj (Option.some.inj h)
        exact ⟨_, rest, .one ha, rfl, rfl⟩
      · cases h
    · rename_i a b rest _
      split at h
      · rename_i hab
        obtain ⟨rfl, rfl⟩ := Prod.mk.inj (Option.some.inj h)
        obtain ⟨ha, hb⟩ := Bool.and_eq_true_iff.1 hab
        exact ⟨_, rest, .two ha hb, rfl, rfl⟩
      · cases h
    · cases h
  · rintro ⟨es, rest, hes, rfl, rfl⟩
    cases hes with
    | one ha => simp [escape?, ha]
    | @two a b ha hb =>
      -- The shorter escape would end where the second digit stands.
      have hm : b ≠ 'm' := by
        rintro rfl
        cases hb
      simp [escape?, ha, hb]

theorem escape?_append (h : IsEscape code es) (rest : List Char) :
    escape? (es ++ rest) = some (code, es.length) :=
  escape?_eq_some_iff.2 ⟨es, rest, h, rfl, rfl⟩

theorem IsEscape.exists_inner (h : IsEscape code es) :
    ∃ inner, es = '\x1b' :: (inner ++ ['m']) ∧ '\x1b' ∉ inner ∧ 'm' ∉ inner := by
  have hdigit {a : Char} (ha : a.isDigit = true) : '\x1b' ≠ a ∧ 'm' ≠ a := by
    constructor <;> rintro rfl <;> cases ha
  cases h with
  | @one a ha => exact ⟨['[', a], rfl, by simp [hdigit ha], by simp [hdigit ha]⟩
  | @two a b ha hb =>
    exact ⟨['[', a, b], rfl, by simp [hdigit ha, hdigit hb], by simp [hdigit ha, hdigit hb]⟩

theorem IsEscape.escape_not_mem_tail (h : IsEscape code es) : '\x1b' ∉ es.tail := by
  obtain ⟨inner, rfl, hinner, -⟩ := h.exists_inner
  simpa using hinner

theorem IsEscape.not_mem_inner {inner : List Char}
    (h : IsEscape code ('\x1b' :: (inner ++ ['m']))) : '\x1b' ∉ inner ∧ 'm' ∉ inner := by
  obtain ⟨chars, heq, hchars⟩ := h.exists_inner
  rwa [List.append_cancel_right (List.cons.inj heq).2]

theorem escape?_eq_none_iff :
    escape? cs = none ↔ ∀ code es, IsEscape code es → ¬ es <+: cs := by
  rw [Option.eq_none_iff_forall_ne_some]
  constructor
  · rintro h code es hes ⟨rest, rfl⟩
    exact h (code, es.length) (escape?_append hes rest)
  · rintro h ⟨code, length⟩ hescape
    obtain ⟨es, rest, hes, -, heq⟩ := escape?_eq_some_iff.1 hescape
    exact h code es hes ⟨rest, heq.symm⟩

theorem escape?_cons_of_ne (hc : c ≠ '\x1b') (cs : List Char) : escape? (c :: cs) = none := by
  rw [escape?_eq_none_iff]
  intro code es hes hlead
  obtain ⟨inner, rfl, -, -⟩ := hes.exists_inner
  exact hc (List.cons_prefix_cons.1 hlead).1.symm

/-! ## One step of the scan -/

theorem marks_nil (skip : Nat) : marks skip [] = [] := by
  rw [marks]

theorem marks_eq_drop (skip : Nat) (cs : List Char) : marks skip cs = marks 0 (cs.drop skip) := by
  induction cs generalizing skip with
  | nil => rw [List.drop_nil, marks_nil, marks_nil]
  | cons c cs ih =>
    cases skip with
    | zero => rfl
    | succ skip => exact ih skip

theorem marks_escape (h : IsEscape code es) (rest : List Char) :
    marks 0 (es ++ rest) = .escape code :: marks 0 rest := by
  have hescape := escape?_append h rest
  obtain ⟨inner, rfl, -, -⟩ := h.exists_inner
  rw [List.cons_append] at hescape ⊢
  rw [marks, hescape]
  change _ :: marks (inner ++ ['m']).length (inner ++ ['m'] ++ rest) = _
  rw [marks_eq_drop, List.drop_left]

theorem marks_char (h : escape? (c :: cs) = none) : marks 0 (c :: cs) = .char c :: marks 0 cs := by
  rw [marks, h]

/-- A property holds of all texts if it holds of the empty one and stays when a whole escape, or a
character that starts none, is written in front. -/
theorem scan_induction {P : List Char → Prop} (nil : P [])
    (escape : ∀ {code es rest}, IsEscape code es → P rest → P (es ++ rest))
    (char : ∀ {c rest}, escape? (c :: rest) = none → P rest → P (c :: rest))
    (cs : List Char) : P cs := by
  induction hlength : cs.length using Nat.strongRecOn generalizing cs with
  | ind n ih =>
    subst hlength
    cases cs with
    | nil => exact nil
    | cons c rest =>
      cases hescape : escape? (c :: rest) with
      | none => exact char hescape (ih rest.length (Nat.lt_succ_self _) rest rfl)
      | some found =>
        obtain ⟨code, length⟩ := found
        obtain ⟨es, tail, hes, -, heq⟩ := escape?_eq_some_iff.1 hescape
        obtain ⟨inner, rfl, -, -⟩ := hes.exists_inner
        rw [heq] at ih ⊢
        refine escape hes (ih tail.length ?_ tail rfl)
        rw [List.length_append, List.length_cons]
        omega

/-! ## Where the scan of a text may be cut -/

/-- No escape that starts in `cs` goes on beyond it if a character follows that escapes can have at
most at their start. -/
theorem escape?_append_cons (hd : ∀ {code es}, IsEscape code es → d ∉ es.tail) (hcs : cs ≠ [])
    (rest : List Char) : escape? (cs ++ d :: rest) = escape? cs := by
  apply Option.ext
  rintro ⟨code, length⟩
  rw [escape?_eq_some_iff, escape?_eq_some_iff]
  constructor
  · rintro ⟨es, tail, hes, hlength, heq⟩
    rcases List.append_eq_append_iff.1 heq with ⟨beyond, rfl, htail⟩ | ⟨inner, rfl, -⟩
    · cases beyond with
      | nil => exact ⟨cs ++ [], [], hes, hlength, by simp⟩
      | cons e beyond =>
        obtain ⟨rfl, -⟩ := List.cons.inj htail
        obtain ⟨c, cs, rfl⟩ := List.exists_cons_of_ne_nil hcs
        exact absurd (List.mem_append_right cs List.mem_cons_self) (hd hes)
    · exact ⟨es, inner, hes, hlength, rfl⟩
  · rintro ⟨es, tail, hes, hlength, rfl⟩
    exact ⟨es, tail ++ d :: rest, hes, hlength, List.append_assoc _ _ _⟩

theorem marks_append_cons (hd : ∀ {code es}, IsEscape code es → d ∉ es.tail)
    (cs rest : List Char) : marks 0 (cs ++ d :: rest) = marks 0 cs ++ marks 0 (d :: rest) := by
  induction cs using scan_induction with
  | nil => rfl
  | escape hes ih => rw [List.append_assoc, marks_escape hes, marks_escape hes, ih, List.cons_append]
  | @char c cs hc ih =>
    have hnone := escape?_append_cons hd (List.cons_ne_nil c cs) rest
    rw [hc, List.cons_append] at hnone
    rw [marks_char hc, List.cons_append, marks_char hnone, ih, List.cons_append]

/-- Characters that are no ESC are marked as they are, whatever follows. -/
theorem marks_append_plain (h : '\x1b' ∉ cs) (rest : List Char) :
    marks 0 (cs ++ rest) = cs.map Mark.char ++ marks 0 rest := by
  induction cs with
  | nil => rfl
  | cons c cs ih =>
    rw [List.mem_cons, not_or] at h
    obtain ⟨hc, hcs⟩ := h
    rw [List.cons_append, marks_char (escape?_cons_of_ne (Ne.symm hc) _), ih hcs, List.map_cons,
      List.cons_append]

theorem marks_plain (h : '\x1b' ∉ cs) : marks 0 cs = cs.map Mark.char := by
  have hmarks := marks_append_plain h []
  rwa [List.append_nil, marks_nil, List.append_nil] at hmarks

end TreeShell.Markup

/-! ## How marks are cut into segments

An escape ends a segment and changes the color of what comes next; the characters up to an escape
make one segment, and a segment without characters is left out. -/

namespace TreeShell.Markup

variable {color : Option Color} {code : Nat} {cs : List Char} {ms : List Mark}

/-- The segments of marks that start in the given color. -/
def shade (color : Option Color) (ms : List Mark) : List Segment :=
  (colored color (runs ms).1 (runs ms).2).filter (·.text != "")

theorem segments_eq_shade (text : String) : segments text = shade none (marks 0 text.toList) := rfl

theorem colored_cons (color : Option Color) (run : List Char) (rest : List (Nat × List Char)) :
    colored color run rest = ⟨color, String.ofList run⟩ :: (colored color [] rest).tail := by
  cases rest <;> rfl

theorem shade_nil (color : Option Color) : shade color [] = [] := by
  simp [shade, runs, colored]

theorem shade_escape (color : Option Color) (code : Nat) (ms : List Mark) :
    shade color (.escape code :: ms) = shade (recolor color code) ms := by
  simp [shade, runs, colored]

theorem runs_chars_append (cs : List Char) (ms : List Mark) :
    runs (cs.map Mark.char ++ ms) = (cs ++ (runs ms).1, (runs ms).2) := by
  induction cs with
  | nil => rfl
  | cons c cs ih => rw [List.map_cons, List.cons_append, runs, ih]; rfl

/-- Characters up to an escape, or to the end, make one segment. -/
theorem shade_chars_append (color : Option Color) (cs : List Char) (h : (runs ms).1 = []) :
    shade color (cs.map Mark.char ++ ms) =
      [(⟨color, String.ofList cs⟩ : Segment)].filter (·.text != "") ++ shade color ms := by
  have hms : shade color ms = (colored color [] (runs ms).2).tail.filter (·.text != "") := by
    rw [shade, h, colored_cons]
    simp
  rw [shade, runs_chars_append, h, List.append_nil, colored_cons, ← List.singleton_append,
    List.filter_append, hms]

theorem text_ne_empty {s : Segment} (h : s ∈ shade color ms) : s.text ≠ "" := by
  simpa using (List.mem_filter.1 h).2

end TreeShell.Markup
