import TreeShell.Proofs.Text.Words
import TreeShell.Suggest.Provider

/-! # What a reply is wrapped in

A reply is blanks around a text, and the text is a body by itself or a body in a fenced block: a
line that starts with the fence and has any words after it, the body with blanks around, and the
fence again. The closing fence may be missing, and so may all but the first line. Every reply has
one body. -/

namespace TreeShell.Suggest
open Text (AllBlank IsTrimmed cutBlank skipBlank)

/-- The trimmed text has this body. -/
inductive Fences (body : List Char) : List Char → Prop
  | bare (hopen : ¬ fence <+: body) : Fences body body
  | closed {info lead trail : List Char} (hinfo : '\n' ∉ info) (hlead : AllBlank lead)
      (htrail : AllBlank trail) :
      Fences body (fence ++ (info ++ '\n' :: (lead ++ (body ++ (trail ++ fence)))))
  | unclosed {info lead : List Char} (hinfo : '\n' ∉ info) (hlead : AllBlank lead)
      (hopen : ¬ fence <:+ lead ++ body) :
      Fences body (fence ++ (info ++ '\n' :: (lead ++ body)))
  /-- There is only the line of the opening fence. -/
  | empty {info : List Char} (hinfo : '\n' ∉ info) (hbody : body = []) :
      Fences body (fence ++ info)

/-- The body of a reply is trimmed, and what is around it are blanks and perhaps fences. -/
def Wraps (body raw : List Char) : Prop :=
  ∃ before text after, AllBlank before ∧ AllBlank after ∧ IsTrimmed text ∧ IsTrimmed body ∧
    Fences body text ∧ raw = before ++ (text ++ after)

variable {body text raw info block : List Char}

/-! ## Taking the fences off -/

/-- What comes after the first line. -/
def below (cs : List Char) : List Char := (cs.dropWhile (· != '\n')).drop 1

theorem below_append (h : '\n' ∉ info) (block : List Char) :
    below (info ++ '\n' :: block) = block := by
  have hline : ∀ c ∈ info, (c != '\n') = true := fun c hc => by
    simpa using ne_of_mem_of_not_mem hc h
  rw [below, List.dropWhile_append_of_pos hline]
  rfl

theorem below_of_not_mem (h : '\n' ∉ info) : below info = [] := by
  have hline : ∀ c ∈ info, (c != '\n') = true := fun c hc => by
    simpa using ne_of_mem_of_not_mem hc h
  rw [below, List.dropWhile_eq_nil_iff.2 hline]
  rfl

/-- The block without the fence that closes it. -/
def opened (block : List Char) : List Char :=
  match Text.after? fence.reverse (cutBlank block).reverse with
  | some reversed => reversed.reverse
  | none => block

theorem unfenced_of_not_fence (h : ¬ fence <+: text) : unfenced text = text := by
  rw [unfenced, Text.after?_eq_none_iff.2 h]

theorem unfenced_fence (cs : List Char) :
    unfenced (fence ++ cs) = cutBlank (skipBlank (opened (below cs))) := by
  rw [unfenced, Text.after?_eq_some_iff.2 rfl]
  rfl

theorem isTrimmed_fence : IsTrimmed fence := by
  have hmark : Text.isBlank '`' = false := by decide
  exact .around (Text.isTrimmed_singleton hmark) (Text.isTrimmed_singleton hmark)
    (List.cons_ne_nil _ _) (List.cons_ne_nil _ _) ['`']

theorem opened_append_fence (cs : List Char) : opened (cs ++ fence) = cs := by
  have hcut : cutBlank (cs ++ fence) = cs ++ fence :=
    Text.cutBlank_append_eq_self isTrimmed_fence (by decide) cs
  rw [opened, hcut, List.reverse_append, Text.after?_eq_some_iff.2 rfl]
  exact List.reverse_reverse cs

theorem opened_eq_self (h : ¬ fence <:+ cutBlank block) : opened block = block := by
  rw [opened, Text.after?_eq_none_iff.2 (mt List.reverse_prefix.1 h)]

/-! ## Every reply has one body -/

theorem unfenced_of_fences (h : Fences body text) (hbody : IsTrimmed body) :
    unfenced text = body := by
  cases h with
  | bare hopen => exact unfenced_of_not_fence hopen
  | @closed info lead trail hinfo hlead htrail =>
    have hopened : opened (lead ++ (body ++ (trail ++ fence))) = lead ++ (body ++ trail) := by
      simpa only [List.append_assoc] using opened_append_fence (lead ++ (body ++ trail))
    rw [unfenced_fence, below_append hinfo, hopened, Text.trim_padded hlead hbody htrail]
  | @unclosed info lead hinfo hlead hopen =>
    -- A block of blanks alone is cut down to nothing.
    have hcut : ¬ fence <:+ cutBlank (lead ++ body) := by
      by_cases hnil : body = []
      · have hlead' : cutBlank (lead ++ body) = [] := by
          rw [hnil, List.append_nil, ← List.nil_append lead, Text.cutBlank_append hlead]
          rfl
        rw [hlead']
        decide
      · rwa [Text.cutBlank_append_eq_self hbody hnil]
    have htrim : cutBlank (skipBlank (lead ++ body)) = body := by
      simpa only [List.append_nil] using Text.trim_padded hlead hbody Text.allBlank_nil
    rw [unfenced_fence, below_append hinfo, opened_eq_self hcut, htrim]
  | empty hinfo hnil =>
    rw [unfenced_fence, below_of_not_mem hinfo, hnil]
    rfl

theorem exists_fences (text : List Char) (htext : IsTrimmed text) :
    ∃ body, IsTrimmed body ∧ Fences body text := by
  by_cases hfence : fence <+: text
  · obtain ⟨line, rfl⟩ := hfence
    by_cases hline : '\n' ∈ line
    · obtain ⟨info, block, rfl, hinfo⟩ := List.eq_append_cons_of_mem hline
      by_cases hclose : fence <:+ block
      · obtain ⟨inner, rfl⟩ := hclose
        obtain ⟨lead, trail, hlead, htrail, hbody, hinner⟩ := Text.exists_trimmed inner
        rw [hinner]
        refine ⟨_, hbody, ?_⟩
        simpa only [List.append_assoc] using Fences.closed hinfo hlead htrail
      · obtain ⟨lead, hlead, hblock, hhead⟩ := Text.exists_skipBlank block
        generalize skipBlank block = body at hblock hhead
        subst hblock
        -- Nothing is cut off the end of the block, where the whole text ends.
        have hlast : ∀ c ∈ body.getLast?, Text.isBlank c = false := by
          intro c hc
          apply htext.last
          simp only [List.getLast?_append, List.getLast?_cons, Option.mem_def.1 hc]
          rfl
        exact ⟨body, ⟨hhead, hlast⟩, .unclosed hinfo hlead hclose⟩
    · exact ⟨[], ⟨by simp, by simp⟩, .empty hline rfl⟩
  · exact ⟨text, htext, .bare hfence⟩

theorem wraps_iff : Wraps body raw ↔ unfenced (cutBlank (skipBlank raw)) = body := by
  constructor
  · rintro ⟨before, text, after, hbefore, hafter, htext, hbody, hfences, rfl⟩
    rw [Text.trim_padded hbefore htext hafter, unfenced_of_fences hfences hbody]
  · rintro rfl
    obtain ⟨before, after, hbefore, hafter, htext, hraw⟩ := Text.exists_trimmed raw
    obtain ⟨body, hbody, hfences⟩ := exists_fences _ htext
    rw [unfenced_of_fences hfences hbody]
    exact ⟨before, _, after, hbefore, hafter, htext, hbody, hfences, hraw⟩

end TreeShell.Suggest
