import Mathlib.Data.List.SplitBy
import TreeShell.Proofs.Markup.Scanning
import TreeShell.Proofs.Text.Pieces

/-! # Painted texts are found again

What is written from plain texts and painted ones is cut into just these texts with their colors,
where plain texts that follow each other make one segment, and stripping leaves the texts alone. -/

namespace TreeShell.Markup

/-! ## Painting -/

theorem isEscape_toDigits {code : Nat} (h : code < 100) :
    IsEscape code ('\x1b' :: '[' :: (Nat.toDigits 10 code ++ ['m'])) := by
  have hdigit : ∀ n < 10, n.digitChar.isDigit = true ∧ n.digitChar.toNat - '0'.toNat = n := by
    decide
  by_cases hone : code < 10
  · obtain ⟨ha, hvalue⟩ := hdigit code hone
    have hescape := IsEscape.one ha
    rw [hvalue] at hescape
    rwa [Nat.toDigits_of_lt_base hone]
  · obtain ⟨ha, htens⟩ := hdigit (code / 10) (by omega)
    obtain ⟨hb, hunits⟩ := hdigit (code % 10) (by omega)
    have hescape := IsEscape.two ha hb
    rw [htens, hunits, Nat.div_add_mod] at hescape
    rwa [Nat.toDigits_of_base_le (by decide) (by omega), Nat.toDigits_of_lt_base (by omega)]

theorem marks_paint {code : Nat} (hcode : code < 100) {text : String} (htext : '\x1b' ∉ text.toList)
    (rest : List Char) : marks 0 ((paint code text).toList ++ rest) =
      .escape code :: (text.toList.map Mark.char ++ .escape 0 :: marks 0 rest) := by
  have hpaint : (paint code text).toList ++ rest =
      ('\x1b' :: '[' :: (Nat.toDigits 10 code ++ ['m'])) ++
        (text.toList ++ (['\x1b', '[', '0', 'm'] ++ rest)) := by
    simp [paint]
  rw [hpaint, marks_escape (isEscape_toDigits hcode), marks_append_plain htext,
    marks_escape (.one (a := '0') rfl)]
  rfl

/-- A text without escapes is one segment, if there is anything in it. -/
theorem segments_plain {text : String} (h : '\x1b' ∉ text.toList) (hne : text ≠ "") :
    segments text = [⟨none, text⟩] := by
  have hnil : (runs []).1 = [] := rfl
  have hshade := shade_chars_append none text.toList hnil
  rw [List.append_nil, shade_nil, List.append_nil, String.ofList_toList] at hshade
  rw [segments_eq_shade, marks_plain h, hshade]
  simp [hne]

theorem segments_paint {code : Nat} (hcode : code < 100) {text : String}
    (h : '\x1b' ∉ text.toList) (hne : text ≠ "") :
    segments (paint code text) = [⟨recolor none code, text⟩] := by
  have hmarks := marks_paint hcode h []
  rw [List.append_nil, marks_nil] at hmarks
  rw [segments_eq_shade, hmarks, shade_escape, shade_chars_append _ _ rfl, shade_escape, shade_nil,
    List.append_nil, String.ofList_toList]
  simp [hne]

/-! ## Fragments -/

/-- A text without ESC that is written plainly or painted in the color of a code. -/
structure Fragment where
  code? : Option Nat
  text : String
  selects : ∀ code ∈ code?, 30 ≤ code ∧ code ≤ 37 ∨ 90 ≤ code ∧ code ≤ 97
  unmarked : '\x1b' ∉ text.toList

namespace Fragment

def written (f : Fragment) : String :=
  match f.code? with
  | none => f.text
  | some code => paint code f.text

def color (f : Fragment) : Option Color := f.code?.bind Color.ofCode?

def isPlain (f : Fragment) : Bool := f.code?.isNone

end Fragment

/-- One segment for a run of fragments, in the color of the first of them. -/
def merged (run : List Fragment) : Segment :=
  ⟨run.head?.bind Fragment.color, Text.join "" (run.map Fragment.text)⟩

/-- Plain texts that follow each other belong together. -/
def together (f g : Fragment) : Bool := f.isPlain && g.isPlain

/-- The maximal runs of plain fragments, and each painted one by itself. -/
def fragmentRuns (fs : List Fragment) : List (List Fragment) := fs.splitBy together

/-- The marks of the written fragments. -/
def fragmentMarks (fs : List Fragment) : List Mark :=
  marks 0 (Text.join "" (fs.map Fragment.written)).toList

variable {f : Fragment} {fs run : List Fragment} {code : Nat}

theorem fragmentMarks_plain (h : f.code? = none) (fs : List Fragment) :
    fragmentMarks (f :: fs) = f.text.toList.map Mark.char ++ fragmentMarks fs := by
  rw [fragmentMarks, List.map_cons, Text.join_empty_cons, String.toList_append, Fragment.written, h]
  exact marks_append_plain f.unmarked _

theorem Fragment.code_lt (h : f.code? = some code) : code ≠ 0 ∧ code < 100 := by
  have hselects := f.selects code h
  omega

theorem fragmentMarks_painted (h : f.code? = some code) (fs : List Fragment) :
    fragmentMarks (f :: fs) =
      .escape code :: (f.text.toList.map Mark.char ++ .escape 0 :: fragmentMarks fs) := by
  rw [fragmentMarks, List.map_cons, Text.join_empty_cons, String.toList_append, Fragment.written, h]
  exact marks_paint (Fragment.code_lt h).2 f.unmarked _

theorem shade_painted (h : f.code? = some code) (fs : List Fragment) :
    shade none (fragmentMarks (f :: fs)) =
      [merged [f]].filter (·.text != "") ++ shade none (fragmentMarks fs) := by
  have hcolor : recolor none code = f.color := by
    rw [recolor, if_neg (Fragment.code_lt h).1, Option.or_none, Fragment.color, h]
    rfl
  have hmerged : merged [f] = ⟨f.color, f.text⟩ := by
    rw [merged, List.map_singleton, Text.join_empty_singleton]
    rfl
  rw [fragmentMarks_painted h, shade_escape, hcolor, shade_chars_append _ _ rfl, shade_escape,
    hmerged, String.ofList_toList]
  rfl

theorem fragmentMarks_run (h : ∀ f ∈ run, f.code? = none) (fs : List Fragment) :
    fragmentMarks (run ++ fs) =
      (Text.join "" (run.map Fragment.text)).toList.map Mark.char ++ fragmentMarks fs := by
  induction run with
  | nil => rfl
  | cons f run ih =>
    obtain ⟨hf, hrun⟩ := List.forall_mem_cons.1 h
    rw [List.cons_append, fragmentMarks_plain hf, ih hrun, List.map_cons, Text.join_empty_cons,
      String.toList_append, List.map_append, List.append_assoc]

theorem shade_run (hne : run ≠ []) (hrun : ∀ f ∈ run, f.code? = none)
    (hfs : (runs (fragmentMarks fs)).1 = []) : shade none (fragmentMarks (run ++ fs)) =
      [merged run].filter (·.text != "") ++ shade none (fragmentMarks fs) := by
  obtain ⟨f, rest, rfl⟩ := List.exists_cons_of_ne_nil hne
  have hcolor : f.color = none := by
    rw [Fragment.color, hrun f List.mem_cons_self]
    rfl
  rw [fragmentMarks_run hrun, shade_chars_append none _ hfs, String.ofList_toList, merged,
    List.head?_cons, Option.bind_some, hcolor]

/-! ## Runs of fragments -/

theorem together_iff {f g : Fragment} :
    together f g = true ↔ f.code? = none ∧ g.code? = none := by
  simp [together, Fragment.isPlain]

theorem forall_plain_of_isChain (hf : f.code? = none)
    (h : (f :: run).IsChain (together · ·)) : ∀ g ∈ f :: run, g.code? = none := by
  induction run generalizing f with
  | nil => simpa using hf
  | cons g run ih =>
    obtain ⟨hfg, hrun⟩ := List.isChain_cons_cons.1 h
    exact List.forall_mem_cons.2 ⟨hf, ih (together_iff.1 hfg).2 hrun⟩

/-- A run is a painted fragment by itself or has plain ones only. -/
theorem fragmentRun_cases (hne : run ≠ []) (h : run.IsChain (together · ·)) :
    (∃ f code, f.code? = some code ∧ run = [f]) ∨ ∀ f ∈ run, f.code? = none := by
  obtain ⟨f, rest, rfl⟩ := List.exists_cons_of_ne_nil hne
  cases hcode : f.code? with
  | none => exact .inr (forall_plain_of_isChain hcode h)
  | some code =>
    cases rest with
    | nil => exact .inl ⟨f, code, hcode, rfl⟩
    | cons g rest =>
      have hplain := (together_iff.1 (List.isChain_cons_cons.1 h).1).1
      rw [hcode] at hplain
      cases hplain

/-- What follows a run of plain fragments starts with an escape, if anything follows. -/
theorem runs_after_plain {groups : List (List Fragment)} (hne : run ≠ [])
    (hrun : ∀ f ∈ run, f.code? = none) (hsep : (run :: groups).IsChain fun a b =>
      ∃ ha hb, together (a.getLast ha) (b.head hb) = false) :
    (runs (fragmentMarks groups.flatten)).1 = [] := by
  cases groups with
  | nil => rfl
  | cons next groups =>
    obtain ⟨⟨_, hnext, hapart⟩, -⟩ := List.isChain_cons_cons.1 hsep
    obtain ⟨f, rest, rfl⟩ := List.exists_cons_of_ne_nil hnext
    cases hcode : f.code? with
    | none =>
      have htogether := together_iff.2 ⟨hrun _ (List.getLast_mem hne), hcode⟩
      rw [List.head_cons, htogether] at hapart
      cases hapart
    | some code =>
      rw [List.flatten_cons, List.cons_append, fragmentMarks_painted hcode]
      rfl

theorem shade_flatten (groups : List (List Fragment)) (hne : [] ∉ groups)
    (hrun : ∀ run ∈ groups, run.IsChain (together · ·))
    (hsep : groups.IsChain fun a b => ∃ ha hb, together (a.getLast ha) (b.head hb) = false) :
    shade none (fragmentMarks groups.flatten) = (groups.map merged).filter (·.text != "") := by
  induction groups with
  | nil => exact shade_nil none
  | cons run groups ih =>
    rw [List.mem_cons, not_or] at hne
    obtain ⟨hhead, hne⟩ := hne
    obtain ⟨hfirst, hrun⟩ := List.forall_mem_cons.1 hrun
    have hcons : ((run :: groups).map merged).filter (·.text != "") =
        [merged run].filter (·.text != "") ++ shade none (fragmentMarks groups.flatten) := by
      rw [ih hne hrun hsep.tail, ← List.filter_append]
      rfl
    rw [hcons, List.flatten_cons]
    rcases fragmentRun_cases (Ne.symm hhead) hfirst with ⟨f, code, hcode, rfl⟩ | hplain
    · exact shade_painted hcode groups.flatten
    · exact shade_run (Ne.symm hhead) hplain (runs_after_plain (Ne.symm hhead) hplain hsep)

theorem filterMap_fragmentMarks (fs : List Fragment) :
    (fragmentMarks fs).filterMap Mark.char? = (Text.join "" (fs.map Fragment.text)).toList := by
  have hchars (cs : List Char) : (cs.map Mark.char).filterMap Mark.char? = cs := by
    rw [List.filterMap_map]
    exact List.filterMap_some
  induction fs with
  | nil => rfl
  | cons f fs ih =>
    rw [List.map_cons, Text.join_empty_cons, String.toList_append]
    cases hcode : f.code? with
    | none => rw [fragmentMarks_plain hcode, List.filterMap_append, hchars, ih]
    | some code =>
      rw [fragmentMarks_painted hcode, List.filterMap_cons_none rfl, List.filterMap_append, hchars,
        List.filterMap_cons_none rfl, ih]

/-- The segments of what is written from fragments are the merged runs of them, and stripped it is
their texts. -/
theorem segments_written (fs : List Fragment) :
    let text := Text.join "" (fs.map Fragment.written)
    segments text = ((fragmentRuns fs).map merged).filter (·.text != "") ∧
      strip text = Text.join "" (fs.map Fragment.text) := by
  intro text
  constructor
  · have hshade := shade_flatten (fragmentRuns fs) (List.nil_notMem_splitBy _ _)
      (fun run hmem => List.isChain_of_mem_splitBy hmem) (List.isChain_getLast_head_splitBy _ _)
    rwa [fragmentRuns, List.flatten_splitBy] at hshade
  · rw [← String.ofList_toList (s := Text.join "" (fs.map Fragment.text)),
      ← filterMap_fragmentMarks]
    rfl

/-- Plain texts that look like parts of an escape with an empty painted text between them, and two
painted texts in a row. -/
def lookalikes : List Fragment :=
  [⟨none, "3", by simp, by simp⟩, ⟨none, "1m", by simp, by simp⟩, ⟨some 91, "", by simp, by simp⟩,
    ⟨none, "[0m", by simp, by simp⟩, ⟨some 31, "m", by simp, by simp⟩,
    ⟨some 34, "[", by simp, by simp⟩]

theorem segments_written_lookalikes :
    let text := "31m\x1b[91m\x1b[0m[0m\x1b[31mm\x1b[0m\x1b[34m[\x1b[0m"
    segments text = [⟨none, "31m"⟩, ⟨none, "[0m"⟩, ⟨some .red, "m"⟩, ⟨some .blue, "["⟩] ∧
      strip text = "31m[0mm[" := by
  have hwritten : Text.join "" (lookalikes.map Fragment.written) =
      "31m\x1b[91m\x1b[0m[0m\x1b[31mm\x1b[0m\x1b[34m[\x1b[0m" := by decide +kernel
  have h := segments_written lookalikes
  rw [hwritten] at h
  exact ⟨h.1.trans (by decide +kernel), h.2.trans (by decide +kernel)⟩

end TreeShell.Markup
