import Mathlib.Data.List.Basic
import Mathlib.Data.Set.Card
import TreeShell.Proofs.Text.Words
import TreeShell.Suggest.Provider

/-! # The best local suggestions

The local provider ranks what it knows by the place where it first occurs: past commands from the
most recent one back, then the known commands in their order. Of all that goes on from the input it
suggests the five that are ranked first, each once and in the order of their ranks. -/

/-! ## Where local suggestions come from

A local suggestion is a past command or the name of a known one, letter for letter. -/

namespace TreeShell.Suggest.Provider

theorem mem_firsts_iff {x : String} {seen xs : List String} :
    x ∈ firsts seen xs ↔ x ∈ xs ∧ x ∉ seen := by
  induction xs generalizing seen with
  | nil => simp [firsts]
  | cons y ys ih =>
    rw [firsts]
    by_cases hy : y ∈ seen
    · rw [if_pos hy, ih]
      simp only [List.mem_cons]
      constructor
      · rintro ⟨hx, hnew⟩
        exact ⟨.inr hx, hnew⟩
      · rintro ⟨rfl | hx, hnew⟩
        · exact absurd hy hnew
        · exact ⟨hx, hnew⟩
    · rw [if_neg hy, List.mem_cons, ih]
      by_cases hx : x = y
      · simp [hx, hy]
      · simp [hx]

theorem mem_of_mem_localAnswer {x : String} {commands : List String} {r : Request}
    (h : x ∈ localAnswer commands r) : x ∈ r.history ∨ x ∈ commands := by
  have hcandidate : x ∈ r.history.reverse ++ commands :=
    (List.mem_filter.1 (mem_firsts_iff.1 (List.mem_of_mem_take h)).1).1
  rcases List.mem_append.1 hcandidate with h | h
  · exact Or.inl (List.mem_reverse.1 h)
  · exact Or.inr h

/-! ## Ranks -/

/-- All that may be suggested, in the order of the ranks and with repetitions. -/
def ranked (commands : List String) (r : Request) : List String := r.history.reverse ++ commands

/-- The text `s` is the input without the blanks at its start. -/
structure IsTyped (input s : String) : Prop where
  cut : ∃ lead, Text.AllBlank lead ∧ input.toList = lead ++ s.toList
  head : ∀ c ∈ s.toList.head?, Text.isBlank c = false

/-- A text of the list `c` that goes on from `s`. -/
structure GoesOn (c : List String) (s x : String) : Prop where
  known : x ∈ c
  begins : s.toList <+: x.toList
  longer : x ≠ s

/-- The texts of `c` that go on from `s`, but no more than the first `n` of them. -/
structure IsBest (c : List String) (s : String) (n : Nat) (found : List String) : Prop where
  nodup : found.Nodup
  sound : ∀ x ∈ found, GoesOn c s x
  ordered : found.Pairwise fun x y => c.idxOf x < c.idxOf y
  length : found.length = min n {x | GoesOn c s x}.ncard
  /-- What is left out comes after all that is found. -/
  first : ∀ x, GoesOn c s x → x ∉ found → ∀ y ∈ found, c.idxOf y < c.idxOf x

variable {c found other : List String} {s : String} {n : Nat}

theorem isTyped_trimStart (input : String) : IsTyped input (Text.trimStart input) := by
  obtain ⟨lead, hlead, hcut, hhead⟩ := Text.exists_skipBlank input.toList
  constructor
  · exact ⟨lead, hlead, by rwa [Text.trimStart, String.toList_ofList]⟩
  · rwa [Text.trimStart, String.toList_ofList]

/-! ### First occurrences -/

/-- What is kept of a filtered list stands in the order of its first occurrences in the whole
list. -/
theorem ordered_firsts (p : String → Bool) (c seen : List String) :
    (firsts seen (c.filter p)).Pairwise fun x y => c.idxOf x < c.idxOf y := by
  induction c generalizing seen with
  | nil => exact .nil
  | cons a c ih =>
    -- All other texts occur one place further on.
    have hshift : ∀ {l : List String}, a ∉ l → l.Pairwise (fun x y => c.idxOf x < c.idxOf y) →
        l.Pairwise fun x y => (a :: c).idxOf x < (a :: c).idxOf y := by
      intro l ha hl
      refine hl.imp_of_mem fun hx hy hlt => ?_
      rw [List.idxOf_cons_ne c (ne_of_mem_of_not_mem hx ha).symm,
        List.idxOf_cons_ne c (ne_of_mem_of_not_mem hy ha).symm]
      exact Nat.succ_lt_succ hlt
    by_cases hp : p a = true
    · rw [List.filter_cons_of_pos hp, firsts]
      split
      · rename_i hseen
        exact hshift (fun ha => (mem_firsts_iff.1 ha).2 hseen) (ih seen)
      · have ha : a ∉ firsts (a :: seen) (c.filter p) :=
          fun ha => (mem_firsts_iff.1 ha).2 List.mem_cons_self
        refine List.pairwise_cons.2 ⟨fun y hy => ?_, hshift ha (ih (a :: seen))⟩
        rw [List.idxOf_cons_self, List.idxOf_cons_ne c (ne_of_mem_of_not_mem hy ha).symm]
        exact Nat.succ_pos _
    · rw [List.filter_cons_of_neg hp]
      exact hshift (fun ha => hp (List.mem_filter.1 (mem_firsts_iff.1 ha).1).2) (ih seen)

theorem nodup_of_ordered (h : found.Pairwise fun x y => c.idxOf x < c.idxOf y) : found.Nodup :=
  h.imp fun hlt heq => absurd (heq ▸ hlt) (Nat.lt_irrefl _)

/-! ### The best of them -/

theorem isBest_take {p : String → Bool} (hp : ∀ x, p x = true ↔ s.toList <+: x.toList ∧ x ≠ s) :
    IsBest c s n ((firsts [] (c.filter p)).take n) := by
  have hordered := ordered_firsts p c []
  have hmem : ∀ x, x ∈ firsts [] (c.filter p) ↔ GoesOn c s x := by
    intro x
    rw [mem_firsts_iff, List.mem_filter, hp]
    exact ⟨fun ⟨⟨hx, hbegins, hne⟩, _⟩ => ⟨hx, hbegins, hne⟩,
      fun h => ⟨⟨h.known, h.begins, h.longer⟩, List.not_mem_nil⟩⟩
  generalize firsts [] (c.filter p) = all at hordered hmem
  have hcard : {x | GoesOn c s x}.ncard = all.length := by
    have hset : {x | GoesOn c s x} = (all.toFinset : Set String) := by
      ext x
      simp [hmem]
    rw [hset, Set.ncard_coe_finset, List.toFinset_card_of_nodup (nodup_of_ordered hordered)]
  have hparts := hordered
  rw [← List.take_append_drop n all, List.pairwise_append] at hparts
  constructor
  · exact nodup_of_ordered hparts.1
  · exact fun x hx => (hmem x).1 (List.mem_of_mem_take hx)
  · exact hparts.1
  · rw [hcard, List.length_take]
  · intro x hx hout y hy
    have hdrop : x ∈ all.drop n := by
      have hall : x ∈ all.take n ++ all.drop n := by rwa [List.take_append_drop, hmem]
      exact (List.mem_append.1 hall).resolve_left hout
    exact hparts.2.2 y hy x hdrop

theorem IsBest.eq_of_subset (h : IsBest c s n found) (h' : IsBest c s n other)
    (hsub : found ⊆ other) : found = other := by
  have hperm : found.Perm other :=
    (List.subperm_of_subset h.nodup hsub).perm_of_length_le (h'.length.trans h.length.symm).le
  exact hperm.eq_of_pairwise (fun x y _ _ hlt hgt => absurd hlt hgt.asymm) h.ordered h'.ordered

/-- There are no two answers to what the best texts are. -/
theorem IsBest.unique (h : IsBest c s n found) (h' : IsBest c s n other) : found = other := by
  by_cases hsub : found ⊆ other
  · exact h.eq_of_subset h' hsub
  · by_cases hsub' : other ⊆ found
    · exact (h'.eq_of_subset h hsub').symm
    · -- Each list would have a text that the other one leaves out, and each would rank first.
      obtain ⟨x, hx, hxout⟩ := Set.not_subset.1 hsub
      obtain ⟨y, hy, hyout⟩ := Set.not_subset.1 hsub'
      have hxy : c.idxOf x < c.idxOf y := h.first y (h'.sound y hy) hyout x hx
      exact absurd (h'.first x (h.sound x hx) hxout y hy) hxy.asymm

theorem isBest_localAnswer (commands : List String) (r : Request) :
    IsBest (ranked commands r) (Text.trimStart r.input) 5 (localAnswer commands r) := by
  refine isBest_take fun x => ?_
  rw [Bool.and_eq_true, bne_iff_ne, ← Option.not_isNone, Bool.not_eq_true', ← Bool.not_eq_true,
    Option.isNone_iff_eq_none, Text.after?_eq_none_iff, not_not]

/-- The local provider always answers, and it answers with the five best of the texts that go on
from the input, or with all of them if there are fewer. No other list has these properties. -/
theorem suggests_the_best (commands : List String) (r : Request) :
    ∃ s found, IsTyped r.input s ∧ (ofCommands commands).answer r = .ok found ∧
      IsBest (ranked commands r) s 5 found ∧
      ∀ other, IsBest (ranked commands r) s 5 other → other = found := by
  have hbest := isBest_localAnswer commands r
  refine ⟨_, _, isTyped_trimStart r.input, rfl, hbest, ?_⟩
  intro other hother
  exact hother.unique hbest

example : localAnswer ["echo", "ls", "env"] ⟨" e", ["echo hi", "e", "exit", "echo hi"]⟩ =
    ["echo hi", "exit", "echo", "env"] := by
  decide +kernel

end TreeShell.Suggest.Provider
