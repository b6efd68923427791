import Mathlib.Data.List.TakeWhile
import TreeShell.Proofs.Json.Reading

/-! # Nothing else is accepted

What a reader takes off the front of a text is a spelling of what it returns. So the texts that are
read as a value are exactly those that the grammar derives for it. -/

namespace TreeShell.Json

theorem exists_isBlank_append (cs : List Char) :
    ∃ before, IsBlank before ∧ cs = before ++ skipSpace cs :=
  ⟨cs.takeWhile isSpace, fun _ hc => List.mem_takeWhile_imp hc,
    (List.takeWhile_append_dropWhile).symm⟩

/-! ## Strings -/

/-- The induction is on how many characters are left, since an escape takes several at once. -/
theorem namesPoints_of_points {cs rest : List Char} {ps : List Nat}
    (h : points cs = some (ps, rest)) : ∃ body, NamesPoints ps body ∧ cs = body ++ '"' :: rest := by
  induction hlength : cs.length using Nat.strongRecOn generalizing cs ps with
  | ind n ih =>
    subst hlength
    unfold points at h
    split at h
    · cases h
    · obtain ⟨rfl, rfl⟩ := Prod.mk.inj (Option.some.inj h)
      exact ⟨[], .nil, rfl⟩
    · rename_i a b c d cs
      split at h
      · rename_i p ps' rest' hunit hrest
        obtain ⟨rfl, rfl⟩ := Prod.mk.inj (Option.some.inj h)
        obtain ⟨body, hbody, rfl⟩ := ih cs.length (by simp only [List.length_cons]; omega) hrest rfl
        exact ⟨_, .unit hunit hbody, rfl⟩
      · cases h
    · rename_i c cs _
      split at h
      · rename_i e ps' rest' hescape hrest
        obtain ⟨rfl, rfl⟩ := Prod.mk.inj (Option.some.inj h)
        obtain ⟨body, hbody, rfl⟩ := ih cs.length (by simp only [List.length_cons]; omega) hrest rfl
        exact ⟨_, .escape hescape hbody, rfl⟩
      · cases h
    · rename_i c cs hquote _ hescape
      split at h
      · cases h
      · rename_i hcontrol
        split at h
        · rename_i ps' rest' hrest
          obtain ⟨rfl, rfl⟩ := Prod.mk.inj (Option.some.inj h)
          obtain ⟨body, hbody, rfl⟩ := ih cs.length (by simp) hrest rfl
          -- A backslash would have been read with the character after it.
          have hplain : c ≠ '\\' := by
            rintro rfl
            obtain ⟨d, ds, hds⟩ : ∃ d ds, body ++ '"' :: rest' = d :: ds :=
              List.exists_cons_of_ne_nil (by simp)
            exact hescape d ds rfl hds
          exact ⟨_, .plain hquote hplain (Nat.not_lt.1 hcontrol) hbody, rfl⟩
        · cases h

theorem spellsText_of_stringBody {cs rest : List Char} {text : Option String}
    (h : stringBody cs = some (text, rest)) :
    ∃ token, SpellsText text ('"' :: token) ∧ cs = token ++ rest := by
  obtain ⟨⟨ps, left⟩, hpoints, heq⟩ := Option.map_eq_some_iff.1 h
  obtain ⟨rfl, rfl⟩ := Prod.mk.inj heq
  obtain ⟨body, hbody, rfl⟩ := namesPoints_of_points hpoints
  exact ⟨body ++ ['"'], ⟨ps, body, hbody, rfl, rfl⟩, by simp⟩

/-! ## Numbers -/

theorem isDigits_of_digits? {cs ds rest : List Char} (h : digits? cs = some (ds, rest)) :
    IsDigits ds ∧ cs = ds ++ rest := by
  unfold digits? at h
  dsimp only at h
  split at h
  · cases h
  · rename_i hne
    obtain ⟨rfl, rfl⟩ := Prod.mk.inj (Option.some.inj h)
    exact ⟨⟨by simpa using hne, fun d hd => List.mem_takeWhile_imp hd⟩,
      List.takeWhile_append_dropWhile.symm⟩

theorem isWhole_of_whole? {cs ds rest : List Char} (h : whole? cs = some (ds, rest)) :
    IsWhole ds ∧ cs = ds ++ rest := by
  unfold whole? at h
  split at h
  · split at h
    · cases h
    · obtain ⟨rfl, rfl⟩ := Prod.mk.inj (Option.some.inj h)
      exact ⟨⟨⟨by simp, by simp⟩, fun _ => rfl⟩, rfl⟩
  · rename_i hzero
    obtain ⟨hdigits, rfl⟩ := isDigits_of_digits? h
    refine ⟨⟨hdigits, fun hhead => ?_⟩, rfl⟩
    obtain ⟨d, tail, rfl⟩ := List.exists_cons_of_ne_nil hdigits.1
    obtain rfl : d = '0' := Option.some.inj hhead
    exact absurd rfl (hzero (tail ++ rest))

theorem spellsFraction_of_fraction? {cs ds rest : List Char} (h : fraction? cs = some (ds, rest)) :
    ∃ fraction, SpellsFraction ds fraction ∧ cs = fraction ++ rest := by
  unfold fraction? at h
  split at h
  · obtain ⟨hdigits, rfl⟩ := isDigits_of_digits? h
    exact ⟨'.' :: ds, Or.inr ⟨hdigits, rfl⟩, rfl⟩
  · obtain ⟨rfl, rfl⟩ := Prod.mk.inj (Option.some.inj h)
    exact ⟨[], Or.inl ⟨rfl, rfl⟩, rfl⟩

theorem spellsSign_sign (cs : List Char) :
    ∃ signed, SpellsSign (sign cs).1 signed ∧ cs = signed ++ (sign cs).2 := by
  unfold sign
  split
  · exact ⟨['-'], Or.inl ⟨rfl, rfl⟩, rfl⟩
  · exact ⟨['+'], Or.inr ⟨Or.inr rfl, rfl⟩, rfl⟩
  · exact ⟨[], Or.inr ⟨Or.inl rfl, rfl⟩, rfl⟩

theorem spellsExponent_of_exponent? {cs rest : List Char} {exponent : Option (Bool × List Char)}
    (h : exponent? cs = some (exponent, rest)) :
    ∃ token, SpellsExponent exponent token ∧ cs = token ++ rest := by
  unfold exponent? at h
  split at h
  · rename_i c cs
    split at h
    · rename_i hletter
      obtain ⟨⟨ds, left⟩, hdigits, heq⟩ := Option.map_eq_some_iff.1 h
      obtain ⟨rfl, rfl⟩ := Prod.mk.inj heq
      obtain ⟨signed, hsign, hcs⟩ := spellsSign_sign cs
      obtain ⟨hds, hleft⟩ := isDigits_of_digits? hdigits
      refine ⟨c :: (signed ++ ds), ⟨c, signed, hletter, hsign, hds, rfl⟩, ?_⟩
      rw [hcs, hleft]
      simp
    · obtain ⟨rfl, rfl⟩ := Prod.mk.inj (Option.some.inj h)
      exact ⟨[], rfl, rfl⟩
  · obtain ⟨rfl, rfl⟩ := Prod.mk.inj (Option.some.inj h)
    exact ⟨[], rfl, rfl⟩

/-- A numeral without its sign, as `Numeral.Spells` has it. -/
theorem spells_of_magnitude? {negative : Bool} {cs rest : List Char} {n : Numeral}
    (h : magnitude? negative cs = some (n, rest)) :
    ∃ token, n.Spells ((if negative then ['-'] else []) ++ token) ∧ cs = token ++ rest := by
  unfold magnitude? at h
  obtain ⟨⟨whole, left⟩, hwhole, h⟩ := Option.bind_eq_some_iff.1 h
  obtain ⟨⟨fraction, left'⟩, hfraction, h⟩ := Option.bind_eq_some_iff.1 h
  obtain ⟨⟨exponent, left''⟩, hexponent, h⟩ := Option.bind_eq_some_iff.1 h
  obtain ⟨rfl, rfl⟩ := Prod.mk.inj (Option.some.inj h)
  obtain ⟨hspelled, rfl⟩ := isWhole_of_whole? hwhole
  obtain ⟨point, hpoint, rfl⟩ := spellsFraction_of_fraction? hfraction
  obtain ⟨power, hpower, rfl⟩ := spellsExponent_of_exponent? hexponent
  exact ⟨whole ++ (point ++ power), ⟨point, power, hspelled, hpoint, hpower, rfl⟩, by simp⟩

theorem spells_of_numeral {cs rest : List Char} {n : Numeral} (h : numeral cs = some (n, rest)) :
    ∃ token, n.Spells token ∧ cs = token ++ rest := by
  cases cs with
  | nil => cases h
  | cons c cs =>
    by_cases hc : c = '-'
    · subst hc
      obtain ⟨token, htoken, rfl⟩ := spells_of_magnitude? h
      exact ⟨'-' :: token, htoken, rfl⟩
    · rw [numeral_of_ne hc] at h
      obtain ⟨token, htoken, hcs⟩ := spells_of_magnitude? h
      exact ⟨token, htoken, hcs⟩

/-! ## Values -/

/-- What follows the first letter of a literal is the rest of it. -/
theorem eq_of_literal {lead cs rest : List Char} {v w : Value}
    (h : (Text.after? lead cs).map (w, ·) = some (v, rest)) : v = w ∧ cs = lead ++ rest := by
  obtain ⟨left, hafter, heq⟩ := Option.map_eq_some_iff.1 h
  obtain ⟨rfl, rfl⟩ := Prod.mk.inj heq
  exact ⟨rfl, Text.after?_eq_some_iff.1 hafter⟩

/-- With `fuel` calls the readers take off only what spells the values that they return. -/
structure Derives (fuel : Nat) : Prop where
  value : ∀ {cs rest v}, value fuel cs = some (v, rest) →
    ∃ before token, IsBlank before ∧ v.Spells token ∧ cs = before ++ (token ++ rest)
  items : ∀ {cs rest vs}, items fuel cs = some (vs, rest) →
    vs ≠ [] ∧ ∃ body, SpellsItems vs body ∧ cs = body ++ ']' :: rest
  members : ∀ {cs rest ms}, members fuel cs = some (ms, rest) →
    ms ≠ [] ∧ ∃ body, SpellsMembers ms body ∧ cs = body ++ '\x7d' :: rest

/-- A value up to the mark that follows it, with the blanks on both sides. -/
theorem Derives.padded {fuel : Nat} (h : Derives fuel) {cs left rest : List Char} {v : Value}
    {c : Char} (hvalue : Json.value fuel cs = some (v, left)) (hmark : skipSpace left = c :: rest) :
    ∃ token, Padded v.Spells token ∧ cs = token ++ c :: rest := by
  obtain ⟨before, token, hbefore, htoken, rfl⟩ := h.value hvalue
  obtain ⟨after, hafter, hleft⟩ := exists_isBlank_append left
  rw [hmark] at hleft
  exact ⟨before ++ (token ++ after), ⟨before, token, after, hbefore, htoken, hafter, rfl⟩,
    by simp [hleft]⟩

theorem Derives.value_step {fuel : Nat} (h : Derives fuel) {cs rest : List Char} {v : Value}
    (hvalue : Json.value (fuel + 1) cs = some (v, rest)) :
    ∃ before token, IsBlank before ∧ v.Spells token ∧ cs = before ++ (token ++ rest) := by
  obtain ⟨before, hbefore, hcs⟩ := exists_isBlank_append cs
  suffices htoken : ∃ token, v.Spells token ∧ skipSpace cs = token ++ rest by
    obtain ⟨token, htoken, heq⟩ := htoken
    exact ⟨before, token, hbefore, htoken, heq ▸ hcs⟩
  unfold Json.value at hvalue
  split at hvalue
  · cases hvalue
  · rename_i body hskip
    obtain ⟨⟨text, left⟩, hbody, heq⟩ := Option.map_eq_some_iff.1 hvalue
    obtain ⟨rfl, rfl⟩ := Prod.mk.inj heq
    obtain ⟨token, htoken, rfl⟩ := spellsText_of_stringBody hbody
    exact ⟨'"' :: token, htoken, hskip⟩
  · rename_i body hskip
    obtain ⟨blank, hblank, hbody⟩ := exists_isBlank_append body
    split at hvalue
    · rename_i left hclose
      obtain ⟨rfl, rfl⟩ := Prod.mk.inj (Option.some.inj hvalue)
      rw [hclose] at hbody
      exact ⟨'[' :: (blank ++ [']']), ⟨blank, hblank, rfl⟩, by simp [hskip, hbody]⟩
    · obtain ⟨⟨vs, left⟩, hitems, heq⟩ := Option.map_eq_some_iff.1 hvalue
      obtain ⟨rfl, rfl⟩ := Prod.mk.inj heq
      obtain ⟨-, inner, hinner, rfl⟩ := h.items hitems
      exact ⟨'[' :: (inner ++ [']']), ⟨inner, hinner, rfl⟩, by simp [hskip]⟩
  · rename_i body hskip
    obtain ⟨blank, hblank, hbody⟩ := exists_isBlank_append body
    split at hvalue
    · rename_i left hclose
      obtain ⟨rfl, rfl⟩ := Prod.mk.inj (Option.some.inj hvalue)
      rw [hclose] at hbody
      exact ⟨'\x7b' :: (blank ++ ['\x7d']), ⟨blank, hblank, rfl⟩, by simp [hskip, hbody]⟩
    · obtain ⟨⟨ms, left⟩, hmembers, heq⟩ := Option.map_eq_some_iff.1 hvalue
      obtain ⟨rfl, rfl⟩ := Prod.mk.inj heq
      obtain ⟨-, inner, hinner, rfl⟩ := h.members hmembers
      exact ⟨'\x7b' :: (inner ++ ['\x7d']), ⟨inner, hinner, rfl⟩, by simp [hskip]⟩
  · rename_i body hskip
    obtain ⟨rfl, rfl⟩ := eq_of_literal hvalue
    exact ⟨['n', 'u', 'l', 'l'], rfl, hskip⟩
  · rename_i body hskip
    obtain ⟨rfl, rfl⟩ := eq_of_literal hvalue
    exact ⟨['t', 'r', 'u', 'e'], rfl, hskip⟩
  · rename_i body hskip
    obtain ⟨rfl, rfl⟩ := eq_of_literal hvalue
    exact ⟨['f', 'a', 'l', 's', 'e'], rfl, hskip⟩
  · obtain ⟨⟨n, left⟩, hnumeral, heq⟩ := Option.map_eq_some_iff.1 hvalue
    obtain ⟨rfl, rfl⟩ := Prod.mk.inj heq
    obtain ⟨token, htoken, hcs⟩ := spells_of_numeral hnumeral
    exact ⟨token, htoken, hcs⟩

theorem Derives.items_step {fuel : Nat} (h : Derives fuel) {cs rest : List Char} {vs : List Value}
    (hitems : Json.items (fuel + 1) cs = some (vs, rest)) :
    vs ≠ [] ∧ ∃ body, SpellsItems vs body ∧ cs = body ++ ']' :: rest := by
  unfold Json.items at hitems
  split at hitems
  · cases hitems
  · rename_i v left hvalue
    split at hitems
    · rename_i others hcomma
      obtain ⟨⟨ws, left'⟩, hothers, heq⟩ := Option.map_eq_some_iff.1 hitems
      obtain ⟨rfl, rfl⟩ := Prod.mk.inj heq
      obtain ⟨first, hfirst, rfl⟩ := h.padded hvalue hcomma
      obtain ⟨hne, body, hbody, rfl⟩ := h.items hothers
      obtain ⟨w, ws, rfl⟩ := List.exists_cons_of_ne_nil hne
      exact ⟨by simp, first ++ ',' :: body, ⟨first, body, hfirst, hbody, rfl⟩, by simp⟩
    · rename_i left' hclose
      obtain ⟨rfl, rfl⟩ := Prod.mk.inj (Option.some.inj hitems)
      obtain ⟨first, hfirst, rfl⟩ := h.padded hvalue hclose
      exact ⟨by simp, first, hfirst, rfl⟩
    · cases hitems

theorem Derives.members_step {fuel : Nat} (h : Derives fuel) {cs rest : List Char}
    {ms : List (Option String × Value)}
    (hmembers : Json.members (fuel + 1) cs = some (ms, rest)) :
    ms ≠ [] ∧ ∃ body, SpellsMembers ms body ∧ cs = body ++ '\x7d' :: rest := by
  unfold Json.members at hmembers
  obtain ⟨before, hbefore, hcs⟩ := exists_isBlank_append cs
  split at hmembers
  · rename_i quoted hquote
    split at hmembers
    · cases hmembers
    · rename_i name named hname
      obtain ⟨token, htoken, rfl⟩ := spellsText_of_stringBody hname
      obtain ⟨between, hbetween, hnamed⟩ := exists_isBlank_append named
      split at hmembers
      · rename_i content hcolon
        have hkey : Padded (SpellsText name) (before ++ ('"' :: token ++ between)) :=
          ⟨before, '"' :: token, between, hbefore, htoken, hbetween, rfl⟩
        have hall : cs = before ++ ('"' :: token ++ between) ++ ':' :: content := by
          rw [hcs, hquote, hnamed, hcolon]
          simp
        split at hmembers
        · cases hmembers
        · rename_i v left hvalue
          split at hmembers
          · rename_i others hcomma
            obtain ⟨⟨ns, left'⟩, hothers, heq⟩ := Option.map_eq_some_iff.1 hmembers
            obtain ⟨rfl, rfl⟩ := Prod.mk.inj heq
            obtain ⟨first, hfirst, rfl⟩ := h.padded hvalue hcomma
            obtain ⟨hne, body, hbody, rfl⟩ := h.members hothers
            obtain ⟨n, ns, rfl⟩ := List.exists_cons_of_ne_nil hne
            exact ⟨by simp, _, ⟨_, body, ⟨_, first, hkey, hfirst, rfl⟩, hbody, rfl⟩, by simp [hall]⟩
          · rename_i left' hclose
            obtain ⟨rfl, rfl⟩ := Prod.mk.inj (Option.some.inj hmembers)
            obtain ⟨first, hfirst, rfl⟩ := h.padded hvalue hclose
            exact ⟨by simp, _, ⟨_, first, hkey, hfirst, rfl⟩, by simp [hall]⟩
          · cases hmembers
      · cases hmembers
  · cases hmembers

theorem derives (fuel : Nat) : Derives fuel := by
  induction fuel with
  | zero =>
    constructor
    · intro cs rest v h
      cases h
    · intro cs rest vs h
      cases h
    · intro cs rest ms h
      cases h
  | succ fuel ih => exact ⟨ih.value_step, ih.items_step, ih.members_step⟩

theorem spells_of_parse {v : Value} {text : String} (h : parse text = some v) :
    Padded v.Spells text.toList := by
  unfold parse at h
  split at h
  · rename_i w left hvalue
    split at h
    · rename_i hend
      obtain rfl := Option.some.inj h
      obtain ⟨before, token, hbefore, htoken, hcs⟩ := (derives _).value hvalue
      obtain ⟨after, hafter, hleft⟩ := exists_isBlank_append left
      rw [List.isEmpty_iff.1 hend, List.append_nil] at hleft
      rw [hleft] at hcs
      exact ⟨before, token, after, hbefore, htoken, hafter, hcs⟩
    · cases h
  · cases h

/-- A text is read as a value exactly if it is a spelling of it, with blanks around. -/
theorem parse_eq_some_iff {v : Value} {text : String} :
    parse text = some v ↔ Padded v.Spells text.toList :=
  ⟨spells_of_parse, parse_of_spells⟩

end TreeShell.Json
