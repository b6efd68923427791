import Mathlib.Data.List.Basic
import Mathlib.Data.List.TakeWhile
import TreeShell.Proofs.Text.Pieces
import TreeShell.Text.Basic

/-! # The words of a text

Trimming leaves nothing of a text exactly when the text has no words: both say that all of its
characters are blank. A blank keeps the words on its two sides apart, and one at the end of a text
changes neither its words nor what trimming leaves. -/

/-! ## What trimming takes off

A text is blanks, then what trimming leaves, then blanks; and what it leaves has no blank at either
end. There is only one way to cut a text like this. -/

namespace TreeShell.Text

def AllBlank (cs : List Char) : Prop := ∀ c ∈ cs, isBlank c = true

instance : DecidablePred AllBlank := fun cs => List.decidableBAll (isBlank · = true) cs

/-- No blank stands at either end. -/
structure IsTrimmed (cs : List Char) : Prop where
  first : ∀ c ∈ cs.head?, isBlank c = false
  last : ∀ c ∈ cs.getLast?, isBlank c = false

variable {before cs after : List Char}

theorem allBlank_append : AllBlank (before ++ after) ↔ AllBlank before ∧ AllBlank after :=
  List.forall_mem_append

theorem allBlank_nil : AllBlank [] := List.forall_mem_nil _

theorem skipBlank_append (h : AllBlank before) (cs : List Char) :
    skipBlank (before ++ cs) = skipBlank cs :=
  List.dropWhile_append_of_pos h

theorem skipBlank_eq_nil (h : AllBlank cs) : skipBlank cs = [] := List.dropWhile_eq_nil_iff.2 h

theorem skipBlank_eq_self (h : ∀ c ∈ cs.head?, isBlank c = false) : skipBlank cs = cs := by
  cases cs with
  | nil => rfl
  | cons c cs => exact List.dropWhile_cons_of_neg (by simp [h c rfl])

theorem cutBlank_eq (cs : List Char) : cutBlank cs = (skipBlank cs.reverse).reverse := rfl

theorem cutBlank_append (h : AllBlank after) (cs : List Char) :
    cutBlank (cs ++ after) = cutBlank cs := by
  rw [cutBlank_eq, List.reverse_append, skipBlank_append fun c hc => h c (List.mem_reverse.1 hc)]
  rfl

theorem cutBlank_eq_self (h : ∀ c ∈ cs.getLast?, isBlank c = false) : cutBlank cs = cs := by
  rw [cutBlank_eq, skipBlank_eq_self (by rwa [List.head?_reverse]), List.reverse_reverse]

theorem cutBlank_append_eq_self (h : IsTrimmed cs) (hne : cs ≠ []) (before : List Char) :
    cutBlank (before ++ cs) = before ++ cs :=
  cutBlank_eq_self fun c hc => h.last c (by rwa [List.getLast?_append_of_ne_nil before hne] at hc)

theorem isTrimmed_singleton {c : Char} (h : isBlank c = false) : IsTrimmed [c] :=
  ⟨by simpa using h, by simpa using h⟩

theorem IsTrimmed.around (hbefore : IsTrimmed before) (hafter : IsTrimmed after)
    (hne : before ≠ []) (hne' : after ≠ []) (cs : List Char) :
    IsTrimmed (before ++ (cs ++ after)) where
  first := by
    rw [List.head?_append_of_ne_nil before hne]
    exact hbefore.first
  last := by
    rw [← List.append_assoc, List.getLast?_append_of_ne_nil (before ++ cs) hne']
    exact hafter.last

theorem trim_padded (hbefore : AllBlank before) (h : IsTrimmed cs) (hafter : AllBlank after) :
    cutBlank (skipBlank (before ++ (cs ++ after))) = cs := by
  rw [skipBlank_append hbefore]
  cases cs with
  | nil =>
    rw [List.nil_append, skipBlank_eq_nil hafter]
    rfl
  | cons c cs =>
    have hhead : skipBlank (c :: cs ++ after) = c :: cs ++ after := skipBlank_eq_self h.first
    rw [hhead, cutBlank_append hafter, cutBlank_eq_self h.last]

theorem exists_skipBlank (cs : List Char) :
    ∃ before, AllBlank before ∧ cs = before ++ skipBlank cs ∧
      ∀ c ∈ (skipBlank cs).head?, isBlank c = false := by
  refine ⟨cs.takeWhile isBlank, fun c hc => List.mem_takeWhile_imp hc,
    List.takeWhile_append_dropWhile.symm, fun c hc => ?_⟩
  have hnot := List.head?_dropWhile_not isBlank cs
  rw [skipBlank, Option.mem_def] at hc
  simpa only [hc] using hnot

theorem exists_cutBlank (cs : List Char) :
    ∃ after, AllBlank after ∧ cs = cutBlank cs ++ after ∧
      ∀ c ∈ (cutBlank cs).getLast?, isBlank c = false := by
  obtain ⟨before, hbefore, hcs, hhead⟩ := exists_skipBlank cs.reverse
  refine ⟨before.reverse, fun c hc => hbefore c (List.mem_reverse.1 hc), ?_, ?_⟩
  · rw [cutBlank_eq, ← List.reverse_append, ← hcs, List.reverse_reverse]
  · rwa [cutBlank_eq, List.getLast?_reverse]

theorem exists_trimmed (cs : List Char) :
    ∃ before after, AllBlank before ∧ AllBlank after ∧ IsTrimmed (cutBlank (skipBlank cs)) ∧
      cs = before ++ (cutBlank (skipBlank cs) ++ after) := by
  obtain ⟨before, hbefore, hcs, hhead⟩ := exists_skipBlank cs
  obtain ⟨after, hafter, hrest, hlast⟩ := exists_cutBlank (skipBlank cs)
  have hfirst : ∀ c ∈ (cutBlank (skipBlank cs)).head?, isBlank c = false := by
    intro c hc
    apply hhead
    rw [hrest, List.head?_append, hc]
    rfl
  exact ⟨before, after, hbefore, hafter, ⟨hfirst, hlast⟩, by rw [← hrest, ← hcs]⟩

end TreeShell.Text

/-! ## Words between blanks -/

namespace TreeShell.Text

variable {α : Type}

theorem cutBlank_eq_nil_iff {cs : List Char} :
    cutBlank cs = [] ↔ ∀ c ∈ cs, isBlank c = true := by
  rw [cutBlank, List.reverse_eq_nil_iff, List.dropWhile_eq_nil_iff]
  simp only [List.mem_reverse]

theorem forall_mem_skipBlank_iff {cs : List Char} :
    (∀ c ∈ skipBlank cs, isBlank c = true) ↔ ∀ c ∈ cs, isBlank c = true := by
  induction cs with
  | nil => rfl
  | cons c cs ih =>
    unfold skipBlank at ih ⊢
    rw [List.dropWhile_cons]
    split
    · rename_i hc
      rw [ih, List.forall_mem_cons]
      exact ⟨fun h => ⟨hc, h⟩, fun h => h.2⟩
    · rfl

theorem trim_eq_empty_iff (s : String) : trim s = "" ↔ ∀ c ∈ s.toList, isBlank c = true := by
  rw [trim, String.ofList_eq_empty_iff, cutBlank_eq_nil_iff, forall_mem_skipBlank_iff]

theorem pieces_all_empty_iff {sep : α → Bool} {as : List α} :
    (∀ p ∈ pieces sep as, p = []) ↔ ∀ a ∈ as, sep a = true := by
  induction as with
  | nil => simp [pieces]
  | cons a as ih =>
    rw [pieces, List.forall_mem_cons]
    split
    · rename_i ha
      rw [List.forall_mem_cons, ih]
      exact ⟨fun h => ⟨ha, h.2⟩, fun h => ⟨rfl, h.2⟩⟩
    · rename_i ha
      -- The first piece starts with `a`, whatever the others are.
      split <;> simp [ha]

theorem words_eq_nil_iff (s : String) : words s = [] ↔ ∀ c ∈ s.toList, isBlank c = true := by
  rw [← pieces_all_empty_iff]
  simp [words]

/-- Trimming leaves nothing of a text exactly when the text has no words. -/
theorem trim_eq_empty_iff_words (s : String) : trim s = "" ↔ words s = [] := by
  rw [trim_eq_empty_iff, words_eq_nil_iff]

/-- A blank keeps the words on its two sides apart. -/
theorem words_append_singleton {c : Char} (hc : isBlank c = true) (s t : String) :
    words (s ++ String.singleton c ++ t) = words s ++ words t := by
  have hcut : (s ++ String.singleton c ++ t).toList = s.toList ++ c :: t.toList := by simp
  rw [words, hcut, pieces_append_cons hc, List.filter_append, List.map_append]
  rfl

/-- A text that is one word. -/
def IsWord (s : String) : Prop := s ≠ "" ∧ ∀ c ∈ s.toList, isBlank c = false

/-- Words with a space between each two of them are read back. -/
theorem words_join {ws : List String} (h : ∀ w ∈ ws, IsWord w) : words (join " " ws) = ws := by
  have hspace : " ".toList = [' '] := by simp
  have hfilled : ∀ p ∈ ws.map String.toList, p ≠ [] ∧ ∀ c ∈ p, isBlank c = false := by
    intro p hp
    obtain ⟨w, hw, rfl⟩ := List.mem_map.1 hp
    obtain ⟨hne, hword⟩ := h w hw
    exact ⟨by simpa using hne, hword⟩
  rw [words, join, String.toList_ofList, hspace, filled_pieces_glue (by decide) hfilled]
  simp [Function.comp_def]

theorem IsWord.words_eq {w : String} (h : IsWord w) : words w = [w] := by
  obtain ⟨hne, hword⟩ := h
  rw [words, pieces_of_no_sep hword, List.filter_cons_of_pos (by simpa using hne)]
  exact congrArg (fun s => [s]) String.ofList_toList

theorem isWord_of_mem_words {s w : String} (h : w ∈ words s) : IsWord w := by
  obtain ⟨p, hp, rfl⟩ := List.mem_map.1 h
  obtain ⟨hpiece, hne⟩ := List.mem_filter.1 hp
  constructor
  · simpa using hne
  · intro c hc
    rw [String.toList_ofList] at hc
    exact not_sep_of_mem_pieces hpiece hc

/-- A word with a space behind it is the first word of the text that it starts. -/
theorem IsWord.words_append_space {w : String} (h : IsWord w) (s : String) :
    words (w ++ " " ++ s) = w :: words s := by
  have hcut : words (w ++ " " ++ s) = words w ++ words s :=
    words_append_singleton (c := ' ') (by decide) w s
  rw [hcut, h.words_eq]
  rfl

theorem words_pair {v w : String} (hv : IsWord v) (hw : IsWord w) :
    words (v ++ " " ++ w) = [v, w] := by
  rw [hv.words_append_space, hw.words_eq]

end TreeShell.Text
