import TreeShell.Json.Format
import TreeShell.Proofs.Json.Reading

/-! # What the writer says

The compact and the pretty form of a document spell one value, so each of them is read back as
that value. -/

namespace TreeShell.Json

mutual

/-- What a document says. -/
def Doc.value : Doc → Value
  | .null => .null
  | .number n => .number ⟨false, Nat.toDigits 10 n, [], none⟩
  | .text s => .string (some s)
  | .list items => .array (valuesOf items)
  | .record fields => .object (membersOf fields)

def valuesOf : List Doc → List Value
  | [] => []
  | d :: ds => d.value :: valuesOf ds

def membersOf : List (String × Doc) → List (Option String × Value)
  | [] => []
  | (name, d) :: fs => (some name, d.value) :: membersOf fs

end

theorem isBlank_nil : IsBlank [] := by
  intro c hc
  cases hc

theorem padded_of {P : List Char → Prop} {cs : List Char} (h : P cs) : Padded P cs :=
  ⟨[], cs, [], isBlank_nil, h, isBlank_nil, by simp⟩

/-! ## Strings and numbers -/

theorem unit?_hexDigit : ∀ n < 0x20, unit? '0' '0' (hexDigit (n / 16)) (hexDigit n) = some n := by
  decide

theorem namesPoints_escape (c : Char) {ps : List Nat} {cs : List Char} (h : NamesPoints ps cs) :
    NamesPoints (c.toNat :: ps) (escape c ++ cs) := by
  unfold escape
  split
  · exact .escape rfl h
  · exact .escape rfl h
  · exact .escape rfl h
  · exact .escape rfl h
  · exact .escape rfl h
  · exact .escape rfl h
  · exact .escape rfl h
  · rename_i hquote hescape _ _ _ _ _
    by_cases hcontrol : c.toNat < 0x20
    · rw [if_pos hcontrol]
      exact .unit (unit?_hexDigit c.toNat hcontrol) h
    · rw [if_neg hcontrol]
      exact .plain hquote hescape (Nat.not_lt.1 hcontrol) h

theorem namesPoints_flatMap (cs : List Char) :
    NamesPoints (cs.map Char.toNat) (cs.flatMap escape) := by
  induction cs with
  | nil => exact .nil
  | cons c cs ih => exact namesPoints_escape c ih

/-- A character is no half of a pair. -/
theorem not_half (c : Char) : isHighHalf c.toNat = false ∧ isLowHalf c.toNat = false := by
  have hc : c.toNat < 0xD800 ∨ 0xDFFF < c.toNat ∧ c.toNat < 0x110000 := c.valid
  constructor
  · simp only [isHighHalf, Bool.and_eq_false_iff, decide_eq_false_iff_not]
    omega
  · simp only [isLowHalf, Bool.and_eq_false_iff, decide_eq_false_iff_not]
    omega

theorem characters?_map (cs : List Char) : characters? (cs.map Char.toNat) = some cs := by
  induction cs with
  | nil => rfl
  | cons c cs ih =>
    cases cs with
    | nil => simp [characters?, not_half]
    | cons d cs =>
      rw [List.map_cons, List.map_cons] at *
      simp [characters?, not_half, ih]

theorem spellsText_quote (s : String) : SpellsText (some s) (quote s) :=
  ⟨s.toList.map Char.toNat, s.toList.flatMap escape, namesPoints_flatMap s.toList,
    by simp [characters?_map], rfl⟩

theorem digitChar_eq_zero : ∀ n < 10, n.digitChar = '0' → n = 0 := by
  decide

theorem toDigits_head {n : Nat} (h : (Nat.toDigits 10 n).head? = some '0') : n = 0 := by
  induction n using Nat.strongRecOn with
  | ind n ih =>
    by_cases hn : n < 10
    · rw [Nat.toDigits_of_lt_base hn] at h
      exact digitChar_eq_zero n hn (Option.some.inj h)
    · have hhead : (Nat.toDigits 10 (n / 10)).head? = some '0' := by
        obtain ⟨d, ds, hds⟩ := List.exists_cons_of_ne_nil (Nat.toDigits_ne_nil (n := n / 10))
        rw [Nat.toDigits_of_base_le (by decide) (Nat.not_lt.1 hn), hds] at h
        rw [hds]
        exact h
      have hzero : n / 10 = 0 := ih (n / 10) (by omega) hhead
      omega

theorem isWhole_toDigits (n : Nat) : IsWhole (Nat.toDigits 10 n) := by
  refine ⟨⟨Nat.toDigits_ne_nil, fun d hd => ?_⟩, fun h => ?_⟩
  · exact Nat.isDigit_of_mem_toDigits (by decide) (by decide) hd
  · rw [toDigits_head h, Nat.toDigits_zero]

theorem spells_toDigits (n : Nat) :
    Numeral.Spells ⟨false, Nat.toDigits 10 n, [], none⟩ (Nat.toDigits 10 n) :=
  ⟨[], [], isWhole_toDigits n, Or.inl ⟨rfl, rfl⟩, rfl, by simp⟩

/-! ## The compact form -/

theorem spellsMember_compact {name : String} {d : Doc} (h : d.value.Spells d.compactChars) :
    SpellsMember (some name) d.value.Spells (quote name ++ ':' :: d.compactChars) :=
  ⟨_, _, padded_of (spellsText_quote name), padded_of h, rfl⟩

mutual

theorem spells_compact : ∀ d : Doc, d.value.Spells d.compactChars
  | .null => rfl
  | .number n => spells_toDigits n
  | .text s => spellsText_quote s
  | .list items => ⟨_, spells_compactItems items, rfl⟩
  | .record fields => ⟨_, spells_compactFields fields, rfl⟩

theorem spells_compactItems : ∀ ds : List Doc, SpellsItems (valuesOf ds) (compactItems ds)
  | [] => isBlank_nil
  | [d] => padded_of (spells_compact d)
  | d :: e :: ds => ⟨_, _, padded_of (spells_compact d), spells_compactItems (e :: ds), rfl⟩

theorem spells_compactFields : ∀ fs : List (String × Doc),
    SpellsMembers (membersOf fs) (compactFields fs)
  | [] => isBlank_nil
  | [(_, d)] => spellsMember_compact (spells_compact d)
  | (_, d) :: (name, e) :: fs =>
    ⟨_, _, spellsMember_compact (spells_compact d), spells_compactFields ((name, e) :: fs),
      by simp [compactFields]⟩

end

theorem parse_compact (d : Doc) : parse d.compact = some d.value := by
  refine parse_of_spells (padded_of ?_)
  simpa [Doc.compact] using spells_compact d

/-! ## The compact form stands on one line -/

/-- The text has no control characters, so no line feeds either. -/
def IsUnbroken (cs : List Char) : Prop := ∀ c ∈ cs, 0x20 ≤ c.toNat

instance (cs : List Char) : Decidable (IsUnbroken cs) :=
  List.decidableBAll (fun c : Char => 0x20 ≤ c.toNat) cs

theorem isUnbroken_append {cs ds : List Char} (hc : IsUnbroken cs) (hd : IsUnbroken ds) :
    IsUnbroken (cs ++ ds) :=
  List.forall_mem_append.2 ⟨hc, hd⟩

theorem isUnbroken_cons {c : Char} {cs : List Char} (hc : 0x20 ≤ c.toNat) (h : IsUnbroken cs) :
    IsUnbroken (c :: cs) :=
  List.forall_mem_cons.2 ⟨hc, h⟩

theorem le_hexDigit (n : Nat) : 0x20 ≤ (hexDigit n).toNat := by
  have h : ∀ m < 16, 0x20 ≤ (Nat.digitChar m).toNat := by decide
  exact h (n % 16) (Nat.mod_lt n (by decide))

theorem isUnbroken_escape (c : Char) : IsUnbroken (escape c) := by
  unfold escape
  split
  · decide
  · decide
  · decide
  · decide
  · decide
  · decide
  · decide
  · split
    · simp [IsUnbroken, le_hexDigit]
    · rename_i hcontrol
      simpa [IsUnbroken] using hcontrol

theorem isUnbroken_quote (s : String) : IsUnbroken (quote s) := by
  refine isUnbroken_cons (by decide) (isUnbroken_append ?_ (by decide))
  intro c hc
  obtain ⟨d, -, hd⟩ := List.mem_flatMap.1 hc
  exact isUnbroken_escape d c hd

theorem isUnbroken_toDigits (n : Nat) : IsUnbroken (Nat.toDigits 10 n) := by
  intro c hc
  have hdigit : c.isDigit = true := Nat.isDigit_of_mem_toDigits (by decide) (by decide) hc
  exact Nat.le_trans (by decide) (Char.isDigit_iff_toNat.1 hdigit).1

mutual

theorem isUnbroken_compact : ∀ d : Doc, IsUnbroken d.compactChars
  | .null => by decide
  | .number n => isUnbroken_toDigits n
  | .text s => isUnbroken_quote s
  | .list items =>
    isUnbroken_cons (by decide) (isUnbroken_append (isUnbroken_compactItems items) (by decide))
  | .record fields =>
    isUnbroken_cons (by decide) (isUnbroken_append (isUnbroken_compactFields fields) (by decide))

theorem isUnbroken_compactItems : ∀ ds : List Doc, IsUnbroken (compactItems ds)
  | [] => by decide
  | [d] => isUnbroken_compact d
  | d :: e :: ds =>
    isUnbroken_append (isUnbroken_compact d)
      (isUnbroken_cons (by decide) (isUnbroken_compactItems (e :: ds)))

theorem isUnbroken_compactFields : ∀ fs : List (String × Doc), IsUnbroken (compactFields fs)
  | [] => by decide
  | [(name, d)] =>
    isUnbroken_append (isUnbroken_quote name) (isUnbroken_cons (by decide) (isUnbroken_compact d))
  | (name, d) :: f :: fs => by
    have hfield : IsUnbroken (quote name ++ ':' :: d.compactChars) :=
      isUnbroken_append (isUnbroken_quote name) (isUnbroken_cons (by decide) (isUnbroken_compact d))
    exact isUnbroken_append hfield
      (isUnbroken_cons (by decide) (isUnbroken_compactFields (f :: fs)))

end

/-! ## The pretty form -/

theorem isBlank_newline (depth : Nat) : IsBlank (newline depth) := by
  intro c hc
  rcases List.mem_cons.1 hc with rfl | hc
  · rfl
  · rw [List.eq_of_mem_replicate hc]
    rfl

theorem spellsMember_pretty {name : String} {d : Doc} {depth : Nat} {after : List Char}
    (h : d.value.Spells (d.prettyChars depth)) (hafter : IsBlank after) :
    SpellsMember (some name) d.value.Spells
      (newline depth ++ quote name ++ [':', ' '] ++ d.prettyChars depth ++ after) := by
  refine ⟨newline depth ++ quote name, ' ' :: (d.prettyChars depth ++ after),
    ⟨newline depth, quote name, [], isBlank_newline depth, spellsText_quote name, isBlank_nil,
      by simp⟩,
    ⟨[' '], d.prettyChars depth, after, ?_, h, hafter, rfl⟩, by simp⟩
  intro c hc
  rw [List.mem_singleton.1 hc]
  rfl

mutual

theorem spells_pretty : ∀ (d : Doc) (depth : Nat), d.value.Spells (d.prettyChars depth)
  | .null, _ => rfl
  | .number n, _ => spells_toDigits n
  | .text s, _ => spellsText_quote s
  | .list [], _ => ⟨[], isBlank_nil, rfl⟩
  | .list (d :: ds), depth =>
    ⟨_, spells_prettyItems (d :: ds) (by simp) (depth + 1) (isBlank_newline depth),
      by simp [Doc.prettyChars]⟩
  | .record [], _ => ⟨[], isBlank_nil, rfl⟩
  | .record (f :: fs), depth =>
    ⟨_, spells_prettyFields (f :: fs) (by simp) (depth + 1) (isBlank_newline depth),
      by simp [Doc.prettyChars]⟩

theorem spells_prettyItems : ∀ ds : List Doc, ds ≠ [] → ∀ (depth : Nat) {after : List Char},
    IsBlank after → SpellsItems (valuesOf ds) (prettyItems depth ds ++ after)
  | [], hne, _, _, _ => absurd rfl hne
  | [d], _, depth, after, hafter =>
    ⟨newline depth, _, after, isBlank_newline depth, spells_pretty d depth, hafter,
      by simp [prettyItems]⟩
  | d :: e :: ds, _, depth, after, hafter =>
    ⟨newline depth ++ d.prettyChars depth, prettyItems depth (e :: ds) ++ after,
      ⟨newline depth, _, [], isBlank_newline depth, spells_pretty d depth, isBlank_nil, by simp⟩,
      spells_prettyItems (e :: ds) (by simp) depth hafter, by simp [prettyItems]⟩

theorem spells_prettyFields : ∀ fs : List (String × Doc), fs ≠ [] → ∀ (depth : Nat)
    {after : List Char}, IsBlank after →
      SpellsMembers (membersOf fs) (prettyFields depth fs ++ after)
  | [], hne, _, _, _ => absurd rfl hne
  | [(_, d)], _, depth, _, hafter => spellsMember_pretty (spells_pretty d depth) hafter
  | (_, d) :: (name, e) :: fs, _, depth, after, hafter =>
    ⟨_, prettyFields depth ((name, e) :: fs) ++ after,
      spellsMember_pretty (spells_pretty d depth) isBlank_nil,
      spells_prettyFields ((name, e) :: fs) (by simp) depth hafter, by simp [prettyFields]⟩

end

theorem parse_pretty (d : Doc) : parse d.pretty = some d.value := by
  refine parse_of_spells (padded_of ?_)
  simpa [Doc.pretty] using spells_pretty d 0

end TreeShell.Json
