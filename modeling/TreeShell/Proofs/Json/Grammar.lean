import TreeShell.Json.Format

/-! # The grammar of JSON

Which characters spell a value. Blanks may stand around values, names and the marks between them;
a character of a string may stand for itself, behind a backslash or as one or two halves in
hexadecimal digits. A value has many spellings. -/

namespace TreeShell.Json

def IsBlank (cs : List Char) : Prop := ∀ c ∈ cs, isSpace c = true

/-- A spelling with blanks around it. -/
def Padded (P : List Char → Prop) (cs : List Char) : Prop :=
  ∃ before token after, IsBlank before ∧ P token ∧ IsBlank after ∧ cs = before ++ (token ++ after)

/-! ## Strings -/

/-- The characters between the quotes of a string, with the points that they name. -/
inductive NamesPoints : List Nat → List Char → Prop
  | nil : NamesPoints [] []
  | plain {c : Char} {ps : List Nat} {cs : List Char} (hquote : c ≠ '"') (hescape : c ≠ '\\')
      (hcontrol : 0x20 ≤ c.toNat) (rest : NamesPoints ps cs) : NamesPoints (c.toNat :: ps) (c :: cs)
  | escape {c e : Char} {ps : List Nat} {cs : List Char} (hescape : escaped? c = some e)
      (rest : NamesPoints ps cs) : NamesPoints (e.toNat :: ps) ('\\' :: c :: cs)
  | unit {a b c d : Char} {p : Nat} {ps : List Nat} {cs : List Char} (hunit : unit? a b c d = some p)
      (rest : NamesPoints ps cs) : NamesPoints (p :: ps) ('\\' :: 'u' :: a :: b :: c :: d :: cs)

def SpellsText (text : Option String) (cs : List Char) : Prop :=
  ∃ ps body, NamesPoints ps body ∧ text = (characters? ps).map String.ofList ∧
    cs = '"' :: (body ++ ['"'])

/-! ## Numbers -/

def IsDigits (ds : List Char) : Prop := ds ≠ [] ∧ ∀ d ∈ ds, d.isDigit = true

/-- Only the number zero starts with a zero. -/
def IsWhole (ds : List Char) : Prop := IsDigits ds ∧ (ds.head? = some '0' → ds = ['0'])

def SpellsFraction (ds cs : List Char) : Prop :=
  ds = [] ∧ cs = [] ∨ IsDigits ds ∧ cs = '.' :: ds

def SpellsSign (negative : Bool) (cs : List Char) : Prop :=
  cs = ['-'] ∧ negative = true ∨ (cs = [] ∨ cs = ['+']) ∧ negative = false

def SpellsExponent : Option (Bool × List Char) → List Char → Prop
  | none, cs => cs = []
  | some (negative, ds), cs =>
    ∃ e sign, (e = 'e' ∨ e = 'E') ∧ SpellsSign negative sign ∧ IsDigits ds ∧ cs = e :: (sign ++ ds)

def Numeral.Spells (n : Numeral) (cs : List Char) : Prop :=
  ∃ fraction exponent, IsWhole n.whole ∧ SpellsFraction n.fraction fraction ∧
    SpellsExponent n.exponent exponent ∧
      cs = (if n.negative then ['-'] else []) ++ (n.whole ++ (fraction ++ exponent))

/-! ## Values -/

/-- A member of an object, `P` being what spells its value. -/
def SpellsMember (name : Option String) (P : List Char → Prop) (cs : List Char) : Prop :=
  ∃ key content, Padded (SpellsText name) key ∧ Padded P content ∧ cs = key ++ ':' :: content

mutual

def Value.Spells : Value → List Char → Prop
  | .null, cs => cs = ['n', 'u', 'l', 'l']
  | .bool true, cs => cs = ['t', 'r', 'u', 'e']
  | .bool false, cs => cs = ['f', 'a', 'l', 's', 'e']
  | .number n, cs => n.Spells cs
  | .string text, cs => SpellsText text cs
  | .array items, cs => ∃ body, SpellsItems items body ∧ cs = '[' :: (body ++ [']'])
  | .object members, cs => ∃ body, SpellsMembers members body ∧ cs = '\x7b' :: (body ++ ['\x7d'])

def SpellsItems : List Value → List Char → Prop
  | [], cs => IsBlank cs
  | [v], cs => Padded v.Spells cs
  | v :: w :: vs, cs =>
    ∃ first others, Padded v.Spells first ∧ SpellsItems (w :: vs) others ∧ cs = first ++ ',' :: others

def SpellsMembers : List (Option String × Value) → List Char → Prop
  | [], cs => IsBlank cs
  | [(name, v)], cs => SpellsMember name v.Spells cs
  | (name, v) :: m :: ms, cs =>
    ∃ first others, SpellsMember name v.Spells first ∧ SpellsMembers (m :: ms) others ∧
      cs = first ++ ',' :: others

end

/-! ## Reading strings and numbers

A spelled string or number is read with whatever follows it left over. A string ends at its
quote; a number only ends where no character follows that could go on with it. -/

theorem skipSpace_append {before : List Char} (h : IsBlank before) (cs : List Char) :
    skipSpace (before ++ cs) = skipSpace cs :=
  List.dropWhile_append_of_pos h

theorem skipSpace_cons {c : Char} (h : isSpace c = false) (cs : List Char) :
    skipSpace (c :: cs) = c :: cs := by
  simp [skipSpace, h]

/-! ## Strings -/

theorem points_of_namesPoints {ps : List Nat} {body : List Char} (h : NamesPoints ps body)
    (rest : List Char) : points (body ++ '"' :: rest) = some (ps, rest) := by
  induction h with
  | nil => simp [points]
  | plain hquote hescape hcontrol _ ih =>
    rw [List.cons_append, points]
    · rw [if_neg (Nat.not_lt.2 hcontrol), ih]
    · exact hquote
    · rintro a b c d cs rfl
      exact absurd rfl hescape
    · rintro c cs rfl
      exact absurd rfl hescape
  | @escape c e ps cs hescape _ ih =>
    rw [List.cons_append, List.cons_append, points]
    · rw [hescape, ih]
    · rintro a b c d cs rfl
      simp [escaped?] at hescape
  | unit hunit _ ih => simp [points, hunit, ih]

theorem stringBody_of_spellsText {text : Option String} {cs : List Char} (h : SpellsText text cs) :
    ∃ body, cs = '"' :: body ∧ ∀ rest, stringBody (body ++ rest) = some (text, rest) := by
  obtain ⟨ps, body, hbody, rfl, rfl⟩ := h
  refine ⟨body ++ ['"'], rfl, fun rest => ?_⟩
  rw [List.append_assoc, stringBody, List.singleton_append, points_of_namesPoints hbody]
  rfl

/-! ## Numbers -/

/-- No number goes on with these characters. -/
def Ends (cs : List Char) : Prop :=
  ∀ c ∈ cs.head?, c.isDigit = false ∧ c ≠ '.' ∧ c ≠ 'e' ∧ c ≠ 'E'

theorem ends_nil : Ends [] := by
  intro c hc
  cases hc

theorem ends_cons {c : Char} {cs : List Char}
    (h : c.isDigit = false ∧ c ≠ '.' ∧ c ≠ 'e' ∧ c ≠ 'E') : Ends (c :: cs) := by
  rintro d hd
  obtain rfl := Option.some.inj hd
  exact h

theorem ends_append {after rest : List Char} (h : IsBlank after) (hrest : Ends rest) :
    Ends (after ++ rest) := by
  cases after with
  | nil => exact hrest
  | cons c cs =>
    refine ends_cons ?_
    have hc : isSpace c = true := h c List.mem_cons_self
    simp only [isSpace, Bool.or_eq_true, beq_iff_eq] at hc
    rcases hc with ((rfl | rfl) | rfl) | rfl <;> decide

def NoDigit (cs : List Char) : Prop := ∀ c ∈ cs.head?, c.isDigit = false

theorem digits?_append {ds rest : List Char} (h : IsDigits ds) (hrest : NoDigit rest) :
    digits? (ds ++ rest) = some (ds, rest) := by
  have htake : (ds ++ rest).takeWhile Char.isDigit = ds := by
    rw [List.takeWhile_append_of_pos h.2]
    cases rest with
    | nil => simp
    | cons c cs => simp [hrest c rfl]
  have hdrop : (ds ++ rest).dropWhile Char.isDigit = rest := by
    rw [List.dropWhile_append_of_pos h.2]
    cases rest with
    | nil => rfl
    | cons c cs => simp [hrest c rfl]
  simp [digits?, htake, hdrop, h.1]

theorem whole?_append {ds rest : List Char} (h : IsWhole ds) (hrest : NoDigit rest) :
    whole? (ds ++ rest) = some (ds, rest) := by
  obtain ⟨hdigits, hzero⟩ := h
  cases ds with
  | nil => exact absurd rfl hdigits.1
  | cons d ds =>
    by_cases hd : d = '0'
    · subst hd
      obtain rfl : ds = [] := (List.cons.inj (hzero rfl)).2
      cases rest with
      | nil => rfl
      | cons c cs => simp [whole?, hrest c rfl]
    · rw [List.cons_append, whole?]
      · exact digits?_append hdigits hrest
      · intro cs hcs
        exact hd (List.cons.inj hcs).1

theorem fraction?_append {ds fraction rest : List Char} (h : SpellsFraction ds fraction)
    (hdigit : NoDigit rest) (hpoint : ∀ c ∈ rest.head?, c ≠ '.') :
    fraction? (fraction ++ rest) = some (ds, rest) := by
  rcases h with ⟨rfl, rfl⟩ | ⟨hdigits, rfl⟩
  · rw [List.nil_append, fraction?]
    rintro cs rfl
    exact hpoint '.' rfl rfl
  · exact digits?_append hdigits hdigit

theorem sign_append {negative : Bool} {cs ds : List Char} (h : SpellsSign negative cs)
    (hds : IsDigits ds) (rest : List Char) :
    sign (cs ++ (ds ++ rest)) = (negative, ds ++ rest) := by
  obtain ⟨hne, hdigit⟩ := hds
  rcases h with ⟨rfl, rfl⟩ | ⟨rfl | rfl, rfl⟩
  · rfl
  · obtain ⟨d, ds, rfl⟩ := List.exists_cons_of_ne_nil hne
    have hd : d.isDigit = true := hdigit d List.mem_cons_self
    rw [List.nil_append, List.cons_append, sign]
    · intro cs hcs
      exact absurd ((List.cons.inj hcs).1 ▸ hd) (by decide)
    · intro cs hcs
      exact absurd ((List.cons.inj hcs).1 ▸ hd) (by decide)
  · rfl

theorem exponent?_append {exponent : Option (Bool × List Char)} {cs rest : List Char}
    (h : SpellsExponent exponent cs) (hrest : Ends rest) :
    exponent? (cs ++ rest) = some (exponent, rest) := by
  cases exponent with
  | none =>
    obtain rfl := h
    cases rest with
    | nil => rfl
    | cons c cs =>
      obtain ⟨-, -, he, hE⟩ := hrest c rfl
      rw [List.nil_append, exponent?, if_neg (not_or.2 ⟨he, hE⟩)]
  | some power =>
    obtain ⟨negative, ds⟩ := power
    obtain ⟨e, signed, he, hsign, hds, rfl⟩ := h
    rw [List.cons_append, exponent?, if_pos he, List.append_assoc, sign_append hsign hds,
      digits?_append hds fun c hc => (hrest c hc).1]
    rfl

theorem spellsExponent_head {exponent : Option (Bool × List Char)} {cs rest : List Char}
    (h : SpellsExponent exponent cs) (hrest : Ends rest) :
    ∀ c ∈ (cs ++ rest).head?, c.isDigit = false ∧ c ≠ '.' := by
  intro c hc
  cases exponent with
  | none =>
    obtain rfl := h
    exact ⟨(hrest c hc).1, (hrest c hc).2.1⟩
  | some power =>
    obtain ⟨e, signed, he, -, -, rfl⟩ := h
    obtain rfl : e = c := Option.some.inj hc
    rcases he with rfl | rfl <;> decide

theorem spellsFraction_head {ds fraction rest : List Char} (h : SpellsFraction ds fraction)
    (hrest : NoDigit rest) : NoDigit (fraction ++ rest) := by
  rcases h with ⟨rfl, rfl⟩ | ⟨-, rfl⟩
  · exact hrest
  · intro c hc
    obtain rfl : '.' = c := Option.some.inj hc
    rfl

/-- A numeral after its sign. -/
def magnitude? (negative : Bool) (cs : List Char) : Option (Numeral × List Char) := do
  let (whole, cs) ← whole? cs
  let (fraction, cs) ← fraction? cs
  let (exponent, cs) ← exponent? cs
  return (⟨negative, whole, fraction, exponent⟩, cs)

theorem numeral_minus (cs : List Char) : numeral ('-' :: cs) = magnitude? true cs := rfl

theorem numeral_of_ne {c : Char} (h : c ≠ '-') (cs : List Char) :
    numeral (c :: cs) = magnitude? false (c :: cs) := by
  unfold numeral
  split
  rename_i negative rest hsign
  split at hsign
  · rename_i hcs
    exact absurd (List.cons.inj hcs).1 h
  · obtain ⟨rfl, rfl⟩ := Prod.mk.inj hsign
    rfl

theorem numeral_append {n : Numeral} {cs rest : List Char} (h : n.Spells cs) (hrest : Ends rest) :
    numeral (cs ++ rest) = some (n, rest) := by
  obtain ⟨negative, whole, fraction, exponent⟩ := n
  obtain ⟨point, power, hwhole, hpoint, hpower, rfl⟩ := h
  have hhead := spellsExponent_head hpower hrest
  have hdigit : NoDigit (power ++ rest) := fun c hc => (hhead c hc).1
  have hread : magnitude? negative (whole ++ (point ++ (power ++ rest))) =
      some (⟨negative, whole, fraction, exponent⟩, rest) := by
    simp [magnitude?, whole?_append hwhole (spellsFraction_head hpoint hdigit),
      fraction?_append hpoint hdigit fun c hc => (hhead c hc).2, exponent?_append hpower hrest]
  cases negative with
  | true => simpa [numeral_minus] using hread
  | false =>
    obtain ⟨d, ds, rfl⟩ := List.exists_cons_of_ne_nil hwhole.1.1
    have hd : d ≠ '-' := by
      rintro rfl
      exact absurd (hwhole.1.2 '-' List.mem_cons_self) (by decide)
    simpa [numeral_of_ne hd] using hread

theorem numeral_head {n : Numeral} {cs : List Char} (h : n.Spells cs) :
    ∃ c tail, cs = c :: tail ∧ (c = '-' ∨ c.isDigit = true) := by
  obtain ⟨point, power, ⟨⟨hne, hdigit⟩, -⟩, -, -, rfl⟩ := h
  cases n.negative with
  | true => exact ⟨'-', _, rfl, Or.inl rfl⟩
  | false =>
    obtain ⟨d, ds, hds⟩ := List.exists_cons_of_ne_nil hne
    exact ⟨d, _, by rw [hds]; rfl, Or.inr (hdigit d (hds ▸ List.mem_cons_self))⟩

/-- No number starts with a blank, a bracket or the first character of another value. -/
theorem numeral_head_ne {c : Char} (h : c = '-' ∨ c.isDigit = true) :
    c ∉ ['"', '[', ']', '\x7b', 'n', 't', 'f', ' ', '\t', '\n', '\r'] := by
  intro hc
  simp only [List.mem_cons, List.not_mem_nil, or_false] at hc
  rcases hc with rfl | rfl | rfl | rfl | rfl | rfl | rfl | rfl | rfl | rfl | rfl <;>
    exact absurd h (by decide)

end TreeShell.Json
