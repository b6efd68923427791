import TreeShell.Proofs.Markup.Scanning
import TreeShell.Proofs.Text.Pieces

/-! # What stripping leaves

Stripping leaves the characters at the places that no escape covers, and it can be done piece by
piece where no escape goes across. -/

/-! ## Places of a text that escapes cover

Every escape that stands in a text is met by its scan, and no two of them overlap. So the places
that the scan shows are those which no escape covers. -/

namespace TreeShell.Markup

variable {code length i j : Nat} {c : Char} {cs es rest : List Char}

/-- An escape with the given code stands in `cs` from the place `i` on. -/
def EscapeAt (cs : List Char) (i code length : Nat) : Prop :=
  ∃ es, IsEscape code es ∧ es.length = length ∧ es <+: cs.drop i

theorem escapeAt_iff : EscapeAt cs i code length ↔ escape? (cs.drop i) = some (code, length) := by
  rw [escape?_eq_some_iff]
  constructor
  · rintro ⟨es, hes, hlength, rest, heq⟩
    exact ⟨es, rest, hes, hlength, heq.symm⟩
  · rintro ⟨es, rest, hes, hlength, heq⟩
    exact ⟨es, hes, hlength, rest, heq.symm⟩

instance (cs : List Char) (i code length : Nat) : Decidable (EscapeAt cs i code length) :=
  decidable_of_iff _ escapeAt_iff.symm

example : EscapeAt ['m', '\x1b', '[', '3', '1', 'm', 'm'] 1 31 5 := by decide

theorem not_escapeAt_nil (i code length : Nat) : ¬ EscapeAt [] i code length := by
  rw [escapeAt_iff, List.drop_nil]
  exact fun h => by cases h

/-- No escape starts inside of another one. -/
theorem escapeAt_append_iff (h : IsEscape code es) {other : Nat} :
    EscapeAt (es ++ rest) i other length ↔ (i = 0 ∧ other = code ∧ length = es.length) ∨
      ∃ k, i = es.length + k ∧ EscapeAt rest k other length := by
  rcases Nat.lt_or_ge i es.length with hi | hi
  · have hbeyond : ¬ ∃ k, i = es.length + k ∧ EscapeAt rest k other length := by
      rintro ⟨k, rfl, -⟩
      omega
    rw [escapeAt_iff, or_iff_left hbeyond]
    cases i with
    | zero =>
      rw [List.drop_zero, escape?_append h, Option.some.injEq, Prod.mk.injEq]
      constructor
      · rintro ⟨rfl, rfl⟩
        exact ⟨rfl, rfl, rfl⟩
      · rintro ⟨-, rfl, rfl⟩
        exact ⟨rfl, rfl⟩
    | succ i =>
      have hmem : es[i + 1] ∈ es.tail := by
        rw [← List.drop_one]
        exact List.mem_drop_iff_getElem.2 ⟨i, by omega, by congr 1; omega⟩
      have hne : es[i + 1] ≠ '\x1b' := fun heq => h.escape_not_mem_tail (heq ▸ hmem)
      rw [List.drop_append_of_le_length (Nat.le_of_lt hi), List.drop_eq_getElem_cons hi,
        List.cons_append, escape?_cons_of_ne hne]
      simp
  · obtain ⟨k, rfl⟩ := Nat.exists_eq_add_of_le hi
    have hne : es ≠ [] := by
      obtain ⟨inner, rfl, -, -⟩ := h.exists_inner
      exact List.cons_ne_nil _ _
    rw [escapeAt_iff, ← List.drop_drop, List.drop_left, ← escapeAt_iff]
    simp [hne]

theorem escapeAt_cons_iff (h : escape? (c :: rest) = none) :
    EscapeAt (c :: rest) i code length ↔ ∃ k, i = k + 1 ∧ EscapeAt rest k code length := by
  cases i with
  | zero => simp [escapeAt_iff, h]
  | succ i => simp [escapeAt_iff]

/-! ### Shown places -/

/-- The place is one of the text, and no escape covers it. -/
def IsShown (cs : List Char) (i : Nat) : Prop :=
  i < cs.length ∧ ∀ j code length, EscapeAt cs j code length → j ≤ i → j + length ≤ i

theorem not_isShown_nil (i : Nat) : ¬ IsShown [] i := fun h => Nat.not_lt_zero i h.1

theorem isShown_append_iff (h : IsEscape code es) :
    IsShown (es ++ rest) i ↔ ∃ k, i = es.length + k ∧ IsShown rest k := by
  constructor
  · rintro ⟨hlt, hfree⟩
    have hstart := hfree 0 code es.length ((escapeAt_append_iff h).2 (.inl ⟨rfl, rfl, rfl⟩))
      (Nat.zero_le i)
    obtain ⟨k, rfl⟩ := Nat.exists_eq_add_of_le (Nat.zero_add es.length ▸ hstart)
    refine ⟨k, rfl, by simpa using hlt, fun j other length hat hj => ?_⟩
    have hend := hfree (es.length + j) other length ((escapeAt_append_iff h).2 (.inr ⟨j, rfl, hat⟩))
      (Nat.add_le_add_left hj _)
    omega
  · rintro ⟨k, rfl, hlt, hfree⟩
    refine ⟨by simpa using hlt, fun j other length hat hj => ?_⟩
    rcases (escapeAt_append_iff h).1 hat with ⟨rfl, -, rfl⟩ | ⟨l, rfl, hrest⟩
    · omega
    · have hend := hfree l other length hrest (by omega)
      omega

theorem isShown_cons_iff (h : escape? (c :: rest) = none) :
    IsShown (c :: rest) i ↔ i = 0 ∨ ∃ k, i = k + 1 ∧ IsShown rest k := by
  constructor
  · rintro ⟨hlt, hfree⟩
    cases i with
    | zero => exact .inl rfl
    | succ i =>
      refine .inr ⟨i, rfl, by simpa using hlt, fun j code length hat hj => ?_⟩
      have hend := hfree (j + 1) code length ((escapeAt_cons_iff h).2 ⟨j, rfl, hat⟩) (by omega)
      omega
  · rintro (rfl | ⟨k, rfl, hlt, hfree⟩)
    · refine ⟨Nat.succ_pos _, fun j code length hat hj => ?_⟩
      obtain ⟨k, rfl, -⟩ := (escapeAt_cons_iff h).1 hat
      omega
    · refine ⟨by simpa using hlt, fun j code length hat hj => ?_⟩
      obtain ⟨l, rfl, hrest⟩ := (escapeAt_cons_iff h).1 hat
      have hend := hfree l code length hrest (by omega)
      omega

end TreeShell.Markup

/-! ## Stripping a text piece by piece

A text that ends in a character which no escape contains is stripped on its own, whatever is
written behind it. Stripping what is glued from such texts is stripping each of them. -/

namespace TreeShell.Markup

/-- Whether no escape contains the character. -/
def isOutside (c : Char) : Bool := c != '\x1b' && c != '[' && c != 'm' && !c.isDigit

theorem IsEscape.isOutside_eq_false {code : Nat} {es : List Char} {c : Char}
    (h : IsEscape code es) (hc : c ∈ es) : isOutside c = false := by
  cases h with
  | one ha =>
    simp only [List.mem_cons, List.not_mem_nil, or_false] at hc
    rcases hc with rfl | rfl | rfl | rfl <;> simp [isOutside, *]
  | two ha hb =>
    simp only [List.mem_cons, List.not_mem_nil, or_false] at hc
    rcases hc with rfl | rfl | rfl | rfl | rfl <;> simp [isOutside, *]

/-! ### Texts that end outside of escapes -/

theorem marks_append_outside {c : Char} (hc : isOutside c = true) (cs rest : List Char) :
    marks 0 (cs ++ c :: rest) = marks 0 cs ++ .char c :: marks 0 rest := by
  have hne : c ≠ '\x1b' := by
    rintro rfl
    cases hc
  have hinside : ∀ {code es}, IsEscape code es → c ∉ es.tail := by
    intro code es hes hmem
    rw [hes.isOutside_eq_false (List.mem_of_mem_tail hmem)] at hc
    cases hc
  rw [marks_append_cons hinside, marks_char (escape?_cons_of_ne hne rest)]

/-- Whatever is written behind the text, its own characters are marked as before. -/
def IsClosed (text : String) : Prop :=
  ∀ rest, marks 0 (text.toList ++ rest) = marks 0 text.toList ++ marks 0 rest

theorem isClosed_empty : IsClosed "" := fun _ => rfl

theorem isClosed_append {c : Char} (hc : isOutside c = true) (text : String) :
    IsClosed (text ++ String.singleton c) := by
  intro rest
  rw [String.toList_append, String.toList_singleton, List.append_assoc, List.singleton_append,
    marks_append_outside hc, marks_append_outside hc, List.append_assoc]
  rfl

theorem strip_append {text : String} (h : IsClosed text) (rest : String) :
    strip (text ++ rest) = strip text ++ strip rest := by
  rw [strip, String.toList_append, h, List.filterMap_append, String.ofList_append]
  rfl

theorem strip_outside {c : Char} (hc : isOutside c = true) (text : String) :
    strip (text ++ String.singleton c) = strip text ++ String.singleton c := by
  rw [strip, String.toList_append, String.toList_singleton,
    marks_append_outside hc, List.filterMap_append, String.ofList_append]
  rfl

theorem lineFeed_eq : "\n" = String.singleton '\n' := rfl

theorem isClosed_line (text : String) : IsClosed (text ++ "\n") := by
  rw [lineFeed_eq]
  exact isClosed_append rfl text

theorem strip_line (text : String) : strip (text ++ "\n") = strip text ++ "\n" := by
  rw [lineFeed_eq]
  exact strip_outside rfl text

theorem strip_join {parts : List String} (h : ∀ part ∈ parts, IsClosed part) :
    strip (Text.join "" parts) = Text.join "" (parts.map strip) := by
  induction parts with
  | nil => rfl
  | cons part parts ih =>
    obtain ⟨hpart, hparts⟩ := List.forall_mem_cons.1 h
    rw [List.map_cons, Text.join_empty_cons, Text.join_empty_cons, strip_append hpart, ih hparts]

/-! ### What stripping takes away -/

theorem filterMap_marks_sublist (cs : List Char) :
    ((marks 0 cs).filterMap Mark.char?).Sublist cs := by
  induction cs using scan_induction with
  | nil => exact List.Sublist.refl _
  | escape hes ih =>
    rw [marks_escape hes]
    exact ih.trans (List.sublist_append_right _ _)
  | char hc ih =>
    rw [marks_char hc]
    exact ih.cons_cons _

theorem strip_sublist (text : String) : (strip text).toList.Sublist text.toList := by
  rw [strip, String.toList_ofList]
  exact filterMap_marks_sublist text.toList

/-- Stripping keeps a text without the character that starts an escape. -/
theorem strip_eq_self {text : String} (h : '\x1b' ∉ text.toList) : strip text = text := by
  rw [strip, marks_plain h, List.filterMap_map]
  have hchar : Mark.char? ∘ Mark.char = some := rfl
  rw [hchar, List.filterMap_some, String.ofList_toList]

end TreeShell.Markup
