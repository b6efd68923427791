import TreeShell.Proofs.Text.Words

/-! # Words laid out on a line

Words are read back from every line that they are laid out on, whatever blanks stand before,
between and behind them; and every line with a word on it is laid out like this. -/

namespace TreeShell.Text

/-- Blanks that keep two words apart. -/
def IsGap (s : String) : Prop := s ≠ "" ∧ AllBlank s.toList

/-- Words with a gap before each but the first, and any blanks around them. -/
structure Layout where
  lead : String
  first : String
  /-- The gaps and the words behind them. -/
  rest : List (String × String)
  trail : String
  allBlank_lead : AllBlank lead.toList
  isWord_first : IsWord first
  isGap_rest : ∀ p ∈ rest, IsGap p.1
  isWord_rest : ∀ p ∈ rest, IsWord p.2
  allBlank_trail : AllBlank trail.toList

/-- The gaps and words as they follow each other. -/
def spread (rest : List (String × String)) : String := join "" (rest.map fun p => p.1 ++ p.2)

def Layout.line (l : Layout) : String := l.lead ++ l.first ++ spread l.rest ++ l.trail

theorem spread_cons (p : String × String) (rest : List (String × String)) :
    spread (p :: rest) = p.1 ++ p.2 ++ spread rest :=
  join_empty_cons _ _

/-! ## Words between blanks -/

theorem ofList_cons (c : Char) (cs : List Char) :
    String.ofList (c :: cs) = String.singleton c ++ String.ofList cs := by
  rw [← String.toList_inj]
  simp

theorem exists_singleton_append {s : String} (hne : s ≠ "") :
    ∃ c t, s = String.singleton c ++ t := by
  obtain ⟨c, cs, hcs⟩ := List.exists_cons_of_ne_nil (mt String.toList_eq_nil_iff.1 hne)
  refine ⟨c, String.ofList cs, ?_⟩
  rw [← ofList_cons, ← hcs, String.ofList_toList]

theorem allBlank_singleton_append {c : Char} {t : String} :
    AllBlank (String.singleton c ++ t).toList ↔ isBlank c = true ∧ AllBlank t.toList := by
  rw [String.toList_append, String.toList_singleton]
  exact List.forall_mem_cons

theorem words_allBlank_append {t : String} (ht : AllBlank t.toList) (s : String) :
    words (t ++ s) = words s := by
  obtain ⟨cs, rfl⟩ : ∃ cs, t = String.ofList cs := ⟨t.toList, String.ofList_toList.symm⟩
  rw [String.toList_ofList] at ht
  induction cs with
  | nil => exact congrArg words String.empty_append
  | cons c cs ih =>
    obtain ⟨hc, hcs⟩ := List.forall_mem_cons.1 ht
    have hwords := words_append_singleton hc "" (String.ofList cs ++ s)
    rw [String.empty_append] at hwords
    rw [ofList_cons, String.append_assoc, hwords, ih hcs]
    rfl

theorem words_append_gap {g : String} (hg : IsGap g) (s t : String) :
    words (s ++ g ++ t) = words s ++ words t := by
  obtain ⟨hne, hblank⟩ := hg
  obtain ⟨c, u, rfl⟩ := exists_singleton_append hne
  obtain ⟨hc, hu⟩ := allBlank_singleton_append.1 hblank
  rw [← String.append_assoc, String.append_assoc, words_append_singleton hc,
    words_allBlank_append hu]

theorem words_append_allBlank {t : String} (ht : AllBlank t.toList) (s : String) :
    words (s ++ t) = words s := by
  by_cases hne : t = ""
  · rw [hne, String.append_empty]
  · have hwords := words_append_gap ⟨hne, ht⟩ s ""
    rw [String.append_empty] at hwords
    exact hwords.trans (List.append_nil _)

theorem words_append_spread {rest : List (String × String)} (hgap : ∀ p ∈ rest, IsGap p.1)
    (hword : ∀ p ∈ rest, IsWord p.2) (s : String) :
    words (s ++ spread rest) = words s ++ rest.map Prod.snd := by
  induction rest generalizing s with
  | nil =>
    have hempty : s ++ spread [] = s := String.append_empty
    rw [hempty]
    exact (List.append_nil _).symm
  | cons p rest ih =>
    obtain ⟨hpgap, hgap⟩ := List.forall_mem_cons.1 hgap
    obtain ⟨hpword, hword⟩ := List.forall_mem_cons.1 hword
    rw [spread_cons, ← String.append_assoc, ← String.append_assoc, ih hgap hword,
      words_append_gap hpgap, hpword.words_eq, List.append_assoc]
    rfl

namespace Layout

/-- The words of a layout are read back from its line. -/
theorem words_line (l : Layout) : words l.line = l.first :: l.rest.map Prod.snd := by
  rw [line, words_append_allBlank l.allBlank_trail, words_append_spread l.isGap_rest l.isWord_rest,
    words_allBlank_append l.allBlank_lead, l.isWord_first.words_eq]
  rfl

/-! ## Every line with a word -/

theorem exists_blank_line {c : Char} (hc : isBlank c = true) (l : Layout) :
    ∃ l' : Layout, l'.line = String.singleton c ++ l.line := by
  refine ⟨{ l with
    lead := String.singleton c ++ l.lead
    allBlank_lead := allBlank_singleton_append.2 ⟨hc, l.allBlank_lead⟩ }, ?_⟩
  simp only [line, String.append_assoc]

theorem isWord_singleton {c : Char} (hc : isBlank c = false) : IsWord (String.singleton c) := by
  constructor
  · simp
  · simpa using hc

/-- A letter before a layout is a word of its own or the start of the first word. -/
theorem exists_letter_line {c : Char} (hc : isBlank c = false) (l : Layout) :
    ∃ l' : Layout, l'.line = String.singleton c ++ l.line := by
  by_cases hlead : l.lead = ""
  · obtain ⟨-, hfirst⟩ := l.isWord_first
    refine ⟨{ l with first := String.singleton c ++ l.first, isWord_first := ⟨?_, ?_⟩ }, ?_⟩
    · simp
    · intro d hd
      rw [String.toList_append, String.toList_singleton] at hd
      exact (List.mem_cons.1 hd).elim (fun hd => hd ▸ hc) (hfirst d)
    · simp only [line, hlead, String.empty_append, String.append_assoc]
  · refine ⟨⟨"", String.singleton c, (l.lead, l.first) :: l.rest, l.trail, allBlank_nil,
      isWord_singleton hc, ?_, ?_, l.allBlank_trail⟩, ?_⟩
    · exact List.forall_mem_cons.2 ⟨⟨hlead, l.allBlank_lead⟩, l.isGap_rest⟩
    · exact List.forall_mem_cons.2 ⟨l.isWord_first, l.isWord_rest⟩
    · simp only [line, spread_cons, String.empty_append, String.append_assoc]

theorem exists_line {cs : List Char} (h : ¬ AllBlank cs) :
    ∃ l : Layout, l.line = String.ofList cs := by
  induction cs with
  | nil => exact absurd allBlank_nil h
  | cons c cs ih =>
    rw [ofList_cons]
    by_cases hcs : AllBlank cs
    · -- The letter `c` is the only word.
      have hc : isBlank c = false := by
        by_contra hblank
        exact h (List.forall_mem_cons.2 ⟨by simpa using hblank, hcs⟩)
      refine ⟨⟨"", String.singleton c, [], String.ofList cs, allBlank_nil, isWord_singleton hc,
        List.forall_mem_nil _, List.forall_mem_nil _, by rwa [String.toList_ofList]⟩, ?_⟩
      rw [line, String.empty_append]
      exact congrArg (· ++ String.ofList cs) String.append_empty
    · obtain ⟨l, hl⟩ := ih hcs
      rw [← hl]
      by_cases hc : isBlank c = true
      · exact l.exists_blank_line hc
      · exact l.exists_letter_line (by simpa using hc)

end Layout

/-- A text has words exactly if they are laid out on it. -/
theorem words_eq_cons_iff {s first : String} {more : List String} :
    words s = first :: more ↔ ∃ l : Layout, l.line = s ∧ l.first = first ∧
      l.rest.map Prod.snd = more := by
  constructor
  · intro h
    have hletter : ¬ AllBlank s.toList := by
      intro hblank
      rw [(words_eq_nil_iff s).2 hblank] at h
      cases h
    obtain ⟨l, hl⟩ := Layout.exists_line hletter
    rw [String.ofList_toList] at hl
    have hwords := l.words_line
    rw [hl, h] at hwords
    obtain ⟨hfirst, hmore⟩ := List.cons.inj hwords
    exact ⟨l, hl, hfirst.symm, hmore.symm⟩
  · rintro ⟨l, rfl, rfl, rfl⟩
    exact l.words_line

end TreeShell.Text
