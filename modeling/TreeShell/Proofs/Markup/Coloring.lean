import Mathlib.Data.List.Forall2
import TreeShell.Proofs.Markup.Scanning
import TreeShell.Proofs.Markup.Stripping
import TreeShell.Proofs.Text.Pieces

/-! # Every character in its color

The segments of a text show each character that no escape covers once and in order, in the color
that the last effective escape before it sets. -/

namespace TreeShell.Markup

/-- What an escape does to the color, if anything: code 0 takes it away, a code from 30 to 37 or
from 90 to 97 sets the color that its last digit counts. -/
def effect? (code : Nat) : Option (Option Color) :=
  if code = 0 then some none
  else if 30 ≤ code ∧ code ≤ 37 ∨ 90 ≤ code ∧ code ≤ 97 then some Color.all[code % 10]?
  else none

variable {start color : Option Color} {code i : Nat} {c : Char} {cs es rest : List Char}

theorem recolor_eq_getD (color : Option Color) (code : Nat) :
    recolor color code = (effect? code).getD color := by
  unfold recolor effect?
  split
  · rfl
  · split
    · rename_i hrange
      have hcolor : Color.ofCode? code = Color.all[code % 10]? := by
        rcases hrange with hplain | hbright
        · rw [Color.ofCode?, if_pos hplain]
          congr 1
          omega
        · rw [Color.ofCode?, if_neg (by omega), if_pos hbright]
          congr 1
          omega
      have hbound : code % 10 < Color.all.length := by
        change code % 10 < 8
        omega
      rw [hcolor, List.getElem?_eq_getElem hbound]
      rfl
    · rename_i hrange
      rw [not_or] at hrange
      rw [Color.ofCode?, if_neg hrange.1, if_neg hrange.2]
      rfl

/-- The color at a place of a text that starts in the color `start`. -/
inductive ColorAt (start : Option Color) (cs : List Char) (i : Nat) : Option Color → Prop where
  | kept (h : ∀ j code length, EscapeAt cs j code length → j + length ≤ i → effect? code = none) :
    ColorAt start cs i start
  | changed {j code length : Nat} {color : Option Color} (hat : EscapeAt cs j code length)
    (hbefore : j + length ≤ i) (heffect : effect? code = some color)
    (hlast : ∀ k other length, EscapeAt cs k other length → j < k → k + length ≤ i →
      effect? other = none) : ColorAt start cs i color

theorem ColorAt.append (hes : IsEscape code es) (h : ColorAt (recolor start code) rest i color) :
    ColorAt start (es ++ rest) (es.length + i) color := by
  cases h with
  | kept h =>
    rw [recolor_eq_getD]
    have hfirst : EscapeAt (es ++ rest) 0 code es.length :=
      (escapeAt_append_iff hes).2 (.inl ⟨rfl, rfl, rfl⟩)
    have hlater : ∀ k other length, EscapeAt (es ++ rest) k other length → 0 < k →
        k + length ≤ es.length + i → effect? other = none := by
      intro k other length hat hk hend
      rcases (escapeAt_append_iff hes).1 hat with ⟨rfl, -, -⟩ | ⟨l, rfl, hrest⟩
      · exact absurd hk (Nat.lt_irrefl 0)
      · exact h l other length hrest (by omega)
    cases heffect : effect? code with
    | some color => exact .changed hfirst (by omega) heffect hlater
    | none =>
      refine .kept fun j other length hat hend => ?_
      rcases Nat.eq_zero_or_pos j with rfl | hj
      · rcases (escapeAt_append_iff hes).1 hat with ⟨-, rfl, -⟩ | ⟨l, hl, hrest⟩
        · exact heffect
        · exact h l other length hrest (by omega)
      · exact hlater j other length hat hj hend
  | changed hat hbefore heffect hlast =>
    refine .changed ((escapeAt_append_iff hes).2 (.inr ⟨_, rfl, hat⟩)) (by omega) heffect ?_
    intro k other length hk hlt hend
    rcases (escapeAt_append_iff hes).1 hk with ⟨rfl, -, -⟩ | ⟨l, rfl, hrest⟩
    · omega
    · exact hlast l other length hrest (by omega) (by omega)

theorem ColorAt.cons (hc : escape? (c :: rest) = none) (h : ColorAt start rest i color) :
    ColorAt start (c :: rest) (i + 1) color := by
  cases h with
  | kept h =>
    refine .kept fun j other length hat hend => ?_
    obtain ⟨l, rfl, hrest⟩ := (escapeAt_cons_iff hc).1 hat
    exact h l other length hrest (by omega)
  | changed hat hbefore heffect hlast =>
    refine .changed ((escapeAt_cons_iff hc).2 ⟨_, rfl, hat⟩) (by omega) heffect ?_
    intro k other length hk hlt hend
    obtain ⟨l, rfl, hrest⟩ := (escapeAt_cons_iff hc).1 hk
    exact hlast l other length hrest (by omega) (by omega)

theorem ColorAt.head (hc : escape? (c :: rest) = none) : ColorAt start (c :: rest) 0 start := by
  refine .kept fun j other length hat hend => ?_
  obtain ⟨l, rfl, -⟩ := (escapeAt_cons_iff hc).1 hat
  omega

/-! ## Letters -/

/-- The characters that marks leave, each with its color. -/
def letters (color : Option Color) : List Mark → List (Char × Option Color)
  | [] => []
  | .char c :: ms => (c, color) :: letters color ms
  | .escape code :: ms => letters (recolor color code) ms

def Segment.letters (s : Segment) : List (Char × Option Color) :=
  s.text.toList.map fun c => (c, s.color)

theorem letters_filter (ss : List Segment) :
    (ss.filter (·.text != "")).flatMap Segment.letters = ss.flatMap Segment.letters := by
  induction ss with
  | nil => rfl
  | cons s ss ih =>
    rw [List.filter_cons, List.flatMap_cons, ← ih]
    split
    · rw [List.flatMap_cons]
    · rename_i htext
      have hempty : s.text = "" := by simpa using htext
      simp [Segment.letters, hempty]

theorem letters_shade (color : Option Color) (ms : List Mark) :
    (shade color ms).flatMap Segment.letters = letters color ms := by
  induction ms generalizing color with
  | nil => simp [shade_nil, letters]
  | cons m ms ih =>
    cases m with
    | escape code => rw [shade_escape, ih, letters]
    | char c =>
      rw [letters, ← ih, shade, shade, letters_filter, letters_filter, runs, colored_cons,
        colored_cons color (runs ms).1]
      simp [Segment.letters]

theorem map_fst_letters (color : Option Color) (ms : List Mark) :
    (letters color ms).map Prod.fst = ms.filterMap Mark.char? := by
  induction ms generalizing color with
  | nil => rfl
  | cons m ms ih =>
    cases m with
    | escape code => exact ih _
    | char c => exact congrArg (c :: ·) (ih color)

theorem join_text_eq_strip (text : String) :
    Text.join "" ((segments text).map Segment.text) = strip text := by
  have htexts (ss : List Segment) : (ss.flatMap Segment.letters).map Prod.fst =
      (Text.join "" (ss.map Segment.text)).toList := by
    rw [Text.toList_join_empty, List.map_flatMap, List.map_map, List.flatMap_def]
    congr 1
    refine List.map_congr_left fun s _ => ?_
    simp [Segment.letters, Function.comp_def]
  rw [← String.toList_inj, ← htexts, segments_eq_shade, letters_shade, map_fst_letters, strip,
    String.toList_ofList]

/-! ## Places of letters -/

/-- The places that no escape covers, in order, hold the letters of the scan. -/
theorem exists_places (cs : List Char) (start : Option Color) : ∃ places : List Nat,
    places.Pairwise (· < ·) ∧ (∀ i, i ∈ places ↔ IsShown cs i) ∧
      List.Forall₂ (fun i letter => cs[i]? = some letter.1 ∧ ColorAt start cs i letter.2) places
        (letters start (marks 0 cs)) := by
  induction cs using scan_induction generalizing start with
  | nil => exact ⟨[], .nil, fun i => by simp [not_isShown_nil], .nil⟩
  | @escape code es rest hes ih =>
    obtain ⟨places, hascending, hmem, hletters⟩ := ih (recolor start code)
    refine ⟨places.map (es.length + ·), ?_, fun i => ?_, ?_⟩
    · exact hascending.map _ fun a b hab => Nat.add_lt_add_left hab _
    · simp only [List.mem_map, hmem, isShown_append_iff hes]
      exact exists_congr fun k => by rw [and_comm, eq_comm]
    · rw [marks_escape hes, letters, List.forall₂_map_left_iff]
      refine hletters.imp fun i letter hletter => ⟨?_, hletter.2.append hes⟩
      rw [List.getElem?_append_right (Nat.le_add_right _ _), Nat.add_sub_cancel_left, hletter.1]
  | @char c rest hc ih =>
    obtain ⟨places, hascending, hmem, hletters⟩ := ih start
    refine ⟨0 :: places.map (· + 1), ?_, fun i => ?_, ?_⟩
    · refine List.pairwise_cons.2 ⟨fun i hi => ?_, hascending.map _ fun a b => Nat.succ_lt_succ⟩
      obtain ⟨k, -, rfl⟩ := List.mem_map.1 hi
      exact Nat.succ_pos k
    · simp only [List.mem_cons, List.mem_map, hmem, isShown_cons_iff hc]
      exact or_congr_right (exists_congr fun k => by rw [and_comm, eq_comm])
    · rw [marks_char hc, letters]
      refine .cons ⟨rfl, .head hc⟩ (List.forall₂_map_left_iff.2 ?_)
      exact hletters.imp fun i letter hletter => ⟨hletter.1, hletter.2.cons hc⟩

/-- Places in a row are cut where the lists that are related to them were glued. -/
theorem exists_cut {α β γ : Type} {R : α → β → Prop} {f : γ → List β} {places : List α}
    {cs : List γ} (h : List.Forall₂ R places (cs.flatMap f)) :
    ∃ runs : List (List α), runs.flatten = places ∧
      List.Forall₂ (fun run c => List.Forall₂ R run (f c)) runs cs := by
  induction cs generalizing places with
  | nil =>
    cases h
    exact ⟨[], rfl, .nil⟩
  | cons c cs ih =>
    rw [List.flatMap_cons] at h
    obtain ⟨runs, hflatten, hruns⟩ := ih (List.forall₂_drop_append _ _ _ h)
    refine ⟨places.take (f c).length :: runs, ?_, .cons (List.forall₂_take_append _ _ _ h) hruns⟩
    rw [List.flatten_cons, hflatten, List.take_append_drop]

/-- Segments cover the shown places of a text, and each of them has its places to itself. -/
structure Covers (text : String) (places : List (List Nat)) (ss : List Segment) : Prop where
  ascending : places.flatten.Pairwise (· < ·)
  mem_iff : ∀ i, i ∈ places.flatten ↔ IsShown text.toList i
  /-- A segment has the characters of its places, and each place has the color of its segment. -/
  shows : List.Forall₂ (fun run s =>
    List.Forall₂ (fun i c => text.toList[i]? = some c ∧ ColorAt none text.toList i s.color) run
      s.text.toList) places ss

/-- No segment is empty, the segments together are the stripped text, and each character that is
not covered by an escape stands in exactly one of them, in order and in its color. -/
theorem segments_cover (text : String) :
    (∀ s ∈ segments text, s.text ≠ "") ∧
      Text.join "" ((segments text).map Segment.text) = strip text ∧
      ∃ places, Covers text places (segments text) := by
  refine ⟨fun s hs => text_ne_empty hs, join_text_eq_strip text, ?_⟩
  obtain ⟨places, hascending, hmem, hletters⟩ := exists_places text.toList none
  rw [← letters_shade, ← segments_eq_shade] at hletters
  obtain ⟨runs, rfl, hruns⟩ := exists_cut hletters
  exact ⟨runs, hascending, hmem, hruns.imp fun run s hrun => List.forall₂_map_right_iff.1 hrun⟩

end TreeShell.Markup
