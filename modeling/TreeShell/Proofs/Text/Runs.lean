import Mathlib.Data.List.Sort
import Mathlib.Order.Interval.Basic
import Mathlib.Order.Minimal
import TreeShell.Proofs.Text.Words

/-! # Words as runs without blanks

A run is an interval of places in a text that holds no blank and lies in no longer interval like
this. The words of a text are what stands on its runs, in the order of their places, and there is
only one way to list the runs. -/

namespace TreeShell.Text

/-- A first and a last place of a text and all places between them. -/
abbrev Stretch := NonemptyInterval Nat

/-- Every place of the stretch is taken, and by no blank. -/
def IsUnbroken (cs : List Char) (r : Stretch) : Prop :=
  ∀ i, r.fst ≤ i → i ≤ r.snd → ∃ c ∈ cs[i]?, isBlank c = false

/-- A stretch without blanks that no other one contains. -/
def IsRun (cs : List Char) (r : Stretch) : Prop := Maximal (IsUnbroken cs) r

/-- The list holds all runs of a text from left to right. -/
structure AreRuns (cs : List Char) (rs : List Stretch) : Prop where
  ordered : rs.Pairwise fun r r' => r.snd < r'.fst
  mem_iff : ∀ r, r ∈ rs ↔ IsRun cs r

/-- What stands on a stretch. -/
def onStretch (cs : List Char) (r : Stretch) : List Char :=
  (cs.drop r.fst).take (r.snd + 1 - r.fst)

/-- The list `ps` has what stands on the runs of a text, run by run. -/
def HasRuns (cs : List Char) (ps : List (List Char)) : Prop :=
  ∃ rs, AreRuns cs rs ∧ rs.map (onStretch cs) = ps

/-- The stretch that lies `k` places further on. -/
def Stretch.moved (k : Nat) (r : Stretch) : Stretch :=
  ⟨(r.fst + k, r.snd + k), Nat.add_le_add_right r.fst_le_snd k⟩

variable {as bs cs : List Char} {ps qs : List (List Char)} {rs rs' : List Stretch}
  {r r' : Stretch} {s : Char} {k : Nat}

theorem Stretch.moved_le_moved_iff : r.moved k ≤ r'.moved k ↔ r ≤ r' := by
  simp only [NonemptyInterval.le_def, moved, Nat.add_le_add_iff_right]

theorem Stretch.exists_moved (h : k ≤ r.fst) : ∃ r' : Stretch, r'.moved k = r := by
  have hle := r.fst_le_snd
  refine ⟨⟨(r.fst - k, r.snd - k), Nat.sub_le_sub_right hle k⟩, ?_⟩
  ext
  · exact Nat.sub_add_cancel h
  · exact Nat.sub_add_cancel (h.trans hle)

theorem IsUnbroken.snd_lt (h : IsUnbroken cs r) : r.snd < cs.length := by
  obtain ⟨c, hc, -⟩ := h r.snd r.fst_le_snd le_rfl
  exact (List.getElem?_eq_some_iff.1 hc).1

theorem AreRuns.unique (h : AreRuns cs rs) (h' : AreRuns cs rs') : rs = rs' := by
  have hirrefl : Std.Irrefl fun r r' : Stretch => r.snd < r'.fst :=
    ⟨fun r hr => absurd r.fst_le_snd (Nat.not_le.2 hr)⟩
  have hantisymm : Std.Antisymm fun r r' : Stretch => r.snd < r'.fst :=
    ⟨fun r r' hr hr' => absurd (hr.trans_le r'.fst_le_snd) (hr'.trans_le r.fst_le_snd).asymm⟩
  exact h.ordered.eq_of_mem_iff h'.ordered fun r => (h.mem_iff r).trans (h'.mem_iff r).symm

theorem HasRuns.unique (h : HasRuns cs ps) (h' : HasRuns cs qs) : ps = qs := by
  obtain ⟨rs, hrs, rfl⟩ := h
  obtain ⟨rs', hrs', rfl⟩ := h'
  rw [hrs.unique hrs']

/-! ## A text without blanks -/

theorem hasRuns_nil : HasRuns [] [] := by
  refine ⟨[], ⟨.nil, fun r => ?_⟩, rfl⟩
  have hnot : ¬ IsRun [] r := fun hr => absurd hr.1.snd_lt (Nat.not_lt_zero _)
  exact iff_of_false List.not_mem_nil hnot

/-- Without blanks the whole text is the only run. -/
theorem hasRuns_of_no_blank (hne : cs ≠ []) (h : ∀ c ∈ cs, isBlank c = false) :
    HasRuns cs [cs] := by
  have hlength : 0 < cs.length := List.length_pos_iff.2 hne
  let whole : Stretch := ⟨(0, cs.length - 1), Nat.zero_le _⟩
  have hwhole : IsUnbroken cs whole := by
    intro i _ hi
    have hlt : i < cs.length := by
      change i ≤ cs.length - 1 at hi
      omega
    exact ⟨cs[i], List.getElem?_eq_getElem hlt, h _ (List.getElem_mem hlt)⟩
  have hle (r : Stretch) (hr : IsUnbroken cs r) : r ≤ whole :=
    ⟨Nat.zero_le _, Nat.le_sub_one_of_lt hr.snd_lt⟩
  refine ⟨[whole], ⟨List.pairwise_singleton _ _, fun r => ?_⟩, ?_⟩
  · rw [List.mem_singleton]
    constructor
    · rintro rfl
      exact ⟨hwhole, fun r hr _ => hle r hr⟩
    · intro hr
      exact hr.eq_of_le hwhole (hle r hr.1)
  · simp only [List.map_singleton, onStretch, whole, List.drop_zero]
    rw [List.take_of_length_le (by omega)]

/-! ## A text cut at a blank -/

theorem getElem?_cut (as : List Char) (s : Char) (bs : List Char) (i : Nat) :
    (as ++ s :: bs)[i + (as.length + 1)]? = bs[i]? := by
  rw [List.getElem?_append_right (by omega)]
  have hplace : i + (as.length + 1) - as.length = i + 1 := by omega
  rw [hplace, List.getElem?_cons_succ]

theorem isUnbroken_cut_left_iff (h : r.snd < as.length) (s : Char) (bs : List Char) :
    IsUnbroken (as ++ s :: bs) r ↔ IsUnbroken as r := by
  have hsame (i : Nat) (hi : i ≤ r.snd) : (as ++ s :: bs)[i]? = as[i]? :=
    List.getElem?_append_left (by omega)
  constructor
  · intro hr i hfst hsnd
    rw [← hsame i hsnd]
    exact hr i hfst hsnd
  · intro hr i hfst hsnd
    rw [hsame i hsnd]
    exact hr i hfst hsnd

theorem isUnbroken_cut_right_iff (as : List Char) (s : Char) (bs : List Char) (r : Stretch) :
    IsUnbroken (as ++ s :: bs) (r.moved (as.length + 1)) ↔ IsUnbroken bs r := by
  constructor
  · intro hr i hfst hsnd
    rw [← getElem?_cut as s bs i]
    exact hr _ (Nat.add_le_add_right hfst _) (Nat.add_le_add_right hsnd _)
  · intro hr i hfst hsnd
    change r.fst + (as.length + 1) ≤ i at hfst
    change i ≤ r.snd + (as.length + 1) at hsnd
    obtain ⟨j, rfl⟩ := Nat.exists_eq_add_of_le' ((Nat.le_add_left _ _).trans hfst)
    rw [getElem?_cut]
    exact hr j (by omega) (by omega)

/-- A stretch without blanks that goes as far as the place of a blank begins behind it. -/
theorem IsUnbroken.lt_fst (h : IsUnbroken (as ++ s :: bs) r) (hs : isBlank s = true)
    (hle : as.length ≤ r.snd) : as.length < r.fst := by
  by_contra hfst
  obtain ⟨c, hc, hfree⟩ := h as.length (Nat.not_lt.1 hfst) hle
  obtain rfl : s = c := by simpa using hc
  rw [hs] at hfree
  cases hfree

/-- No stretch without blanks goes across a blank. -/
theorem isUnbroken_cut_iff (hs : isBlank s = true) : IsUnbroken (as ++ s :: bs) r ↔
    IsUnbroken as r ∨ ∃ r', IsUnbroken bs r' ∧ r'.moved (as.length + 1) = r := by
  constructor
  · intro h
    by_cases hleft : r.snd < as.length
    · exact Or.inl ((isUnbroken_cut_left_iff hleft s bs).1 h)
    · obtain ⟨r', rfl⟩ := Stretch.exists_moved (h.lt_fst hs (Nat.not_lt.1 hleft))
      exact Or.inr ⟨r', (isUnbroken_cut_right_iff as s bs r').1 h, rfl⟩
  · rintro (h | ⟨r', h, rfl⟩)
    · exact (isUnbroken_cut_left_iff h.snd_lt s bs).2 h
    · exact (isUnbroken_cut_right_iff as s bs r').2 h

theorem isRun_cut_iff (hs : isBlank s = true) : IsRun (as ++ s :: bs) r ↔
    IsRun as r ∨ ∃ r', IsRun bs r' ∧ r'.moved (as.length + 1) = r := by
  have hcut (r : Stretch) : IsUnbroken (as ++ s :: bs) r ↔
      IsUnbroken as r ∨ ∃ r', IsUnbroken bs r' ∧ r'.moved (as.length + 1) = r :=
    isUnbroken_cut_iff hs
  constructor
  · rintro ⟨hfree, hlongest⟩
    rcases (hcut r).1 hfree with h | ⟨r', h, rfl⟩
    · exact Or.inl ⟨h, fun t ht hle => hlongest ((hcut t).2 (Or.inl ht)) hle⟩
    · refine Or.inr ⟨r', ⟨h, fun t ht hle => ?_⟩, rfl⟩
      have hmoved := (hcut _).2 (Or.inr ⟨t, ht, rfl⟩)
      exact Stretch.moved_le_moved_iff.1 (hlongest hmoved (Stretch.moved_le_moved_iff.2 hle))
  · -- A stretch around a run is on the same side of the blank.
    rintro (h | ⟨r', h, rfl⟩)
    · refine ⟨(hcut r).2 (Or.inl h.1), fun t ht hle => ?_⟩
      rcases (hcut t).1 ht with ht | ⟨t', -, rfl⟩
      · exact h.2 ht hle
      · have hlt := h.1.snd_lt
        have hfst : t'.fst + (as.length + 1) ≤ r.fst := hle.1
        have hsnd := r.fst_le_snd
        omega
    · refine ⟨(hcut _).2 (Or.inr ⟨r', h.1, rfl⟩), fun t ht hle => ?_⟩
      rcases (hcut t).1 ht with ht | ⟨t', ht', rfl⟩
      · have hlt := ht.snd_lt
        have hsnd : r'.snd + (as.length + 1) ≤ t.snd := hle.2
        omega
      · exact Stretch.moved_le_moved_iff.2 (h.2 ht' (Stretch.moved_le_moved_iff.1 hle))

theorem onStretch_cut_left (h : r.snd < as.length) (s : Char) (bs : List Char) :
    onStretch (as ++ s :: bs) r = onStretch as r := by
  have hle := r.fst_le_snd
  rw [onStretch, onStretch, List.drop_append_of_le_length (by omega),
    List.take_append_of_le_length (by rw [List.length_drop]; omega)]

theorem onStretch_cut_right (as : List Char) (s : Char) (bs : List Char) (r : Stretch) :
    onStretch (as ++ s :: bs) (r.moved (as.length + 1)) = onStretch bs r := by
  have hdrop : (as ++ s :: bs).drop (r.fst + (as.length + 1)) = bs.drop r.fst := by
    have hcut : as ++ s :: bs = (as ++ [s]) ++ bs := by simp
    have hlength : (as ++ [s]).length = as.length + 1 := by simp
    rw [hcut, Nat.add_comm, ← hlength, List.drop_length_add_append]
  have hcount : r.snd + (as.length + 1) + 1 - (r.fst + (as.length + 1)) = r.snd + 1 - r.fst := by
    omega
  rw [onStretch, onStretch, Stretch.moved, hdrop, hcount]

theorem HasRuns.cut (h : HasRuns as ps) (hs : isBlank s = true) (h' : HasRuns bs qs) :
    HasRuns (as ++ s :: bs) (ps ++ qs) := by
  obtain ⟨rs, hrs, rfl⟩ := h
  obtain ⟨rs', hrs', rfl⟩ := h'
  have hlt : ∀ r ∈ rs, r.snd < as.length := fun r hr => ((hrs.mem_iff r).1 hr).1.snd_lt
  refine ⟨rs ++ rs'.map (Stretch.moved (as.length + 1)), ⟨?_, fun r => ?_⟩, ?_⟩
  · refine List.pairwise_append.2 ⟨hrs.ordered, List.pairwise_map.2 ?_, fun r hr t ht => ?_⟩
    · exact hrs'.ordered.imp fun h => Nat.add_lt_add_right h _
    · obtain ⟨r', -, rfl⟩ := List.mem_map.1 ht
      have hr := hlt r hr
      change r.snd < r'.fst + (as.length + 1)
      omega
  · simp only [List.mem_append, List.mem_map, hrs.mem_iff, hrs'.mem_iff, isRun_cut_iff hs]
  · rw [List.map_append, List.map_map]
    congr 1
    · exact List.map_congr_left fun r hr => onStretch_cut_left (hlt r hr) s bs
    · exact List.map_congr_left fun r _ => onStretch_cut_right as s bs r

/-! ## The words of a text -/

theorem hasRuns_pieces_of_no_blank (h : ∀ c ∈ cs, isBlank c = false) :
    HasRuns cs ((pieces isBlank cs).filter (!·.isEmpty)) := by
  rw [pieces_of_no_sep h]
  cases cs with
  | nil => exact hasRuns_nil
  | cons c cs => exact hasRuns_of_no_blank (List.cons_ne_nil c cs) h

/-- The filled pieces between blanks stand on the runs. The induction goes along the text, with
what comes after the last blank kept in `as`. -/
theorem hasRuns_pieces_append (has : ∀ c ∈ as, isBlank c = false) :
    HasRuns (as ++ cs) ((pieces isBlank (as ++ cs)).filter (!·.isEmpty)) := by
  induction cs generalizing as with
  | nil =>
    rw [List.append_nil]
    exact hasRuns_pieces_of_no_blank has
  | cons c cs ih =>
    by_cases hc : isBlank c = true
    · rw [pieces_append_cons hc, List.filter_append]
      exact (hasRuns_pieces_of_no_blank has).cut hc (ih (List.forall_mem_nil _))
    · have hsplit : as ++ c :: cs = (as ++ [c]) ++ cs := by simp
      rw [hsplit]
      apply ih
      exact List.forall_mem_append.2 ⟨has, by simpa using hc⟩

theorem hasRuns_words (s : String) : HasRuns s.toList ((words s).map String.toList) := by
  have hpieces : HasRuns s.toList ((pieces isBlank s.toList).filter (!·.isEmpty)) :=
    hasRuns_pieces_append (List.forall_mem_nil _)
  simpa [words, Function.comp_def] using hpieces

/-- The words of a text are what stands on its runs. -/
theorem words_eq_iff_hasRuns {s : String} {ws : List String} :
    words s = ws ↔ HasRuns s.toList (ws.map String.toList) := by
  constructor
  · rintro rfl
    exact hasRuns_words s
  · intro h
    have hsame : (words s).map String.toList = ws.map String.toList := (hasRuns_words s).unique h
    exact List.map_injective_iff.2 (fun _ _ => String.toList_inj.1) hsame

end TreeShell.Text
