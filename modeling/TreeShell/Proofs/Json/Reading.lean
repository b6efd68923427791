import TreeShell.Proofs.Json.Grammar

/-! # What the reader accepts

The reader accepts every text that the grammar derives and returns the value that it spells. The
bound on its calls is never reached, since no more of them nest than there are characters. -/

namespace TreeShell.Json

theorem value_append {before : List Char} (h : IsBlank before) (fuel : Nat) (cs : List Char) :
    value fuel (before ++ cs) = value fuel cs := by
  cases fuel with
  | zero => rfl
  | succ fuel => simp only [value, skipSpace_append h]

theorem value_numeral {c : Char} (h : c = '-' ∨ c.isDigit = true) (fuel : Nat) (cs : List Char) :
    value (fuel + 1) (c :: cs) = (numeral (c :: cs)).map fun (n, rest) => (.number n, rest) := by
  have hne := numeral_head_ne h
  simp only [List.mem_cons, List.not_mem_nil, or_false, not_or] at hne
  have hspace : isSpace c = false := by simp [isSpace, hne]
  simp [value, skipSpace_cons hspace, hne]

/-- The first character of a value is no blank and closes no array. -/
theorem spells_head {v : Value} {cs : List Char} (h : v.Spells cs) :
    ∃ c tail, cs = c :: tail ∧ isSpace c = false ∧ c ≠ ']' := by
  cases v with
  | null => exact ⟨_, _, h, by decide, by decide⟩
  | bool b => cases b <;> exact ⟨_, _, h, by decide, by decide⟩
  | number n =>
    obtain ⟨c, tail, rfl, hc⟩ := numeral_head h
    have hne := numeral_head_ne hc
    simp only [List.mem_cons, List.not_mem_nil, or_false, not_or] at hne
    exact ⟨c, tail, rfl, by simp [isSpace, hne], hne.2.2.1⟩
  | string text =>
    obtain ⟨ps, body, -, -, rfl⟩ := h
    exact ⟨_, _, rfl, by decide, by decide⟩
  | array items =>
    obtain ⟨body, -, rfl⟩ := h
    exact ⟨_, _, rfl, by decide, by decide⟩
  | object members =>
    obtain ⟨body, -, rfl⟩ := h
    exact ⟨_, _, rfl, by decide, by decide⟩

/-- With `fuel` calls the reader gets through every spelling of `v` that is not longer. -/
def Reads (fuel : Nat) (v : Value) : Prop :=
  ∀ {cs rest : List Char}, v.Spells cs → cs.length ≤ fuel → Ends rest →
    value fuel (cs ++ rest) = some (v, rest)

theorem value_of_padded {v : Value} {fuel : Nat} (hv : Reads fuel v) {cs rest : List Char}
    (h : Padded v.Spells cs) (hlength : cs.length ≤ fuel) (hrest : Ends rest) :
    ∃ after, value fuel (cs ++ rest) = some (v, after) ∧ skipSpace after = skipSpace rest := by
  obtain ⟨before, token, after, hbefore, htoken, hafter, rfl⟩ := h
  refine ⟨after ++ rest, ?_, skipSpace_append hafter rest⟩
  simp only [List.length_append] at hlength
  rw [List.append_assoc, List.append_assoc, value_append hbefore]
  exact hv htoken (by omega) (ends_append hafter hrest)

/-- A member is read by way of its quote, its name, its colon and its value. -/
theorem member_of_spells {name : Option String} {v : Value} {fuel : Nat} (hv : Reads fuel v)
    {cs rest : List Char} (h : SpellsMember name v.Spells cs) (hlength : cs.length ≤ fuel)
    (hrest : Ends rest) :
    ∃ body named content after, skipSpace (cs ++ rest) = '"' :: body ∧
      stringBody body = some (name, named) ∧ skipSpace named = ':' :: content ∧
        value fuel content = some (v, after) ∧ skipSpace after = skipSpace rest := by
  obtain ⟨_, content, ⟨before, token, after, hbefore, htoken, hafter, rfl⟩, hcontent, rfl⟩ := h
  obtain ⟨body, rfl, hbody⟩ := stringBody_of_spellsText htoken
  simp only [List.length_append, List.length_cons] at hlength
  obtain ⟨left, hvalue, hleft⟩ := value_of_padded hv hcontent (by omega) hrest
  refine ⟨body ++ (after ++ ':' :: (content ++ rest)), after ++ ':' :: (content ++ rest),
    content ++ rest, left, ?_, hbody _, ?_, hvalue, hleft⟩
  · simp only [List.append_assoc, List.cons_append]
    rw [skipSpace_append hbefore, skipSpace_cons (by decide)]
  · rw [skipSpace_append hafter, skipSpace_cons (by decide)]

theorem skipSpace_items {v : Value} {vs : List Value} {body : List Char}
    (h : SpellsItems (v :: vs) body) (rest : List Char) :
    ∃ c cs, skipSpace (body ++ rest) = c :: cs ∧ c ≠ ']' := by
  have hpadded : ∃ first others, Padded v.Spells first ∧ body = first ++ others := by
    cases vs with
    | nil => exact ⟨body, [], h, (List.append_nil body).symm⟩
    | cons w ws =>
      obtain ⟨first, others, hfirst, -, rfl⟩ := h
      exact ⟨first, ',' :: others, hfirst, rfl⟩
  obtain ⟨_, others, ⟨before, token, after, hbefore, htoken, -, rfl⟩, rfl⟩ := hpadded
  obtain ⟨c, tail, rfl, hspace, hc⟩ := spells_head htoken
  refine ⟨c, tail ++ (after ++ (others ++ rest)), ?_, hc⟩
  rw [List.append_assoc, List.append_assoc, skipSpace_append hbefore, List.append_assoc,
    List.cons_append, skipSpace_cons hspace]

theorem skipSpace_members {m : Option String × Value} {ms : List (Option String × Value)}
    {body : List Char} (h : SpellsMembers (m :: ms) body) (rest : List Char) :
    ∃ cs, skipSpace (body ++ rest) = '"' :: cs := by
  obtain ⟨name, v⟩ := m
  have hmember : ∃ first others, SpellsMember name v.Spells first ∧ body = first ++ others := by
    cases ms with
    | nil => exact ⟨body, [], h, (List.append_nil body).symm⟩
    | cons m ms =>
      obtain ⟨first, others, hfirst, -, rfl⟩ := h
      exact ⟨first, ',' :: others, hfirst, rfl⟩
  obtain ⟨_, others, ⟨_, content, ⟨before, token, after, hbefore, htoken, -, rfl⟩, -, rfl⟩, rfl⟩ :=
    hmember
  obtain ⟨text, rfl, -⟩ := stringBody_of_spellsText htoken
  simp only [List.append_assoc, List.cons_append]
  rw [skipSpace_append hbefore, skipSpace_cons (by decide)]
  exact ⟨_, rfl⟩

theorem value_array (fuel : Nat) (cs : List Char) :
    value (fuel + 1) ('[' :: cs) = match skipSpace cs with
      | ']' :: rest => some (.array [], rest)
      | _ => (items fuel cs).map fun (vs, rest) => (.array vs, rest) :=
  rfl

theorem value_object (fuel : Nat) (cs : List Char) :
    value (fuel + 1) ('\x7b' :: cs) = match skipSpace cs with
      | '\x7d' :: rest => some (.object [], rest)
      | _ => (members fuel cs).map fun (ms, rest) => (.object ms, rest) :=
  rfl

mutual

theorem reads : ∀ (v : Value) (fuel : Nat), Reads fuel v
  | v, 0, cs, rest, h, hlength, _ => by
    obtain ⟨c, tail, rfl, -⟩ := spells_head h
    cases hlength
  | .null, fuel + 1, cs, rest, h, _, _ => by
    obtain rfl := h
    rfl
  | .bool true, fuel + 1, cs, rest, h, _, _ => by
    obtain rfl := h
    rfl
  | .bool false, fuel + 1, cs, rest, h, _, _ => by
    obtain rfl := h
    rfl
  | .number n, fuel + 1, cs, rest, h, _, hrest => by
    obtain ⟨c, tail, rfl, hc⟩ := numeral_head h
    rw [List.cons_append, value_numeral hc, ← List.cons_append, numeral_append h hrest]
    rfl
  | .string text, fuel + 1, cs, rest, h, _, _ => by
    obtain ⟨body, rfl, hbody⟩ := stringBody_of_spellsText h
    change (stringBody (body ++ rest)).map _ = _
    rw [hbody]
    rfl
  | .array [], fuel + 1, cs, rest, h, _, _ => by
    obtain ⟨body, hbody, rfl⟩ := h
    rw [List.cons_append, List.append_assoc, value_array, skipSpace_append hbody]
    rfl
  | .array (v :: vs), fuel + 1, cs, rest, h, hlength, _ => by
    obtain ⟨body, hbody, rfl⟩ := h
    obtain ⟨c, tail, hskip, hc⟩ := skipSpace_items hbody (']' :: rest)
    have hitems : items fuel (body ++ ']' :: rest) = some (v :: vs, rest) :=
      items_of_spells (v :: vs) (by simp) hbody (Nat.lt_of_succ_le (by simpa using hlength))
    rw [List.cons_append, List.append_assoc, value_array, List.singleton_append, hskip, hitems]
    split
    · rename_i hbracket
      exact absurd (List.cons.inj hbracket).1 hc
    · rfl
  | .object [], fuel + 1, cs, rest, h, _, _ => by
    obtain ⟨body, hbody, rfl⟩ := h
    rw [List.cons_append, List.append_assoc, value_object, skipSpace_append hbody]
    rfl
  | .object (m :: ms), fuel + 1, cs, rest, h, hlength, _ => by
    obtain ⟨body, hbody, rfl⟩ := h
    obtain ⟨tail, hskip⟩ := skipSpace_members hbody ('\x7d' :: rest)
    have hmembers : members fuel (body ++ '\x7d' :: rest) = some (m :: ms, rest) :=
      members_of_spells (m :: ms) (by simp) hbody (Nat.lt_of_succ_le (by simpa using hlength))
    rw [List.cons_append, List.append_assoc, value_object, List.singleton_append, hskip, hmembers]
    rfl

theorem items_of_spells : ∀ (vs : List Value), vs ≠ [] → ∀ {fuel : Nat} {cs rest : List Char},
    SpellsItems vs cs → cs.length < fuel → items fuel (cs ++ ']' :: rest) = some (vs, rest)
  | [], hne, _, _, _, _, _ => absurd rfl hne
  | _, _, 0, _, _, _, hlength => absurd hlength (Nat.not_lt_zero _)
  | [v], _, fuel + 1, cs, rest, h, hlength => by
    obtain ⟨after, hvalue, hafter⟩ :=
      value_of_padded (reads v fuel) h (by omega) (ends_cons (by decide) : Ends (']' :: rest))
    rw [skipSpace_cons (by decide)] at hafter
    simp only [items, hvalue, hafter]
  | v :: w :: vs, _, fuel + 1, cs, rest, h, hlength => by
    obtain ⟨first, others, hfirst, hothers, rfl⟩ := h
    simp only [List.length_append, List.length_cons] at hlength
    have hitems : items fuel (others ++ ']' :: rest) = some (w :: vs, rest) :=
      items_of_spells (w :: vs) (by simp) hothers (by omega)
    obtain ⟨after, hvalue, hafter⟩ := value_of_padded (reads v fuel) hfirst (by omega)
      (ends_cons (by decide) : Ends (',' :: (others ++ ']' :: rest)))
    rw [skipSpace_cons (by decide)] at hafter
    rw [List.append_assoc, List.cons_append]
    simp only [items, hvalue, hafter, hitems, Option.map_some]

theorem members_of_spells : ∀ (ms : List (Option String × Value)), ms ≠ [] →
    ∀ {fuel : Nat} {cs rest : List Char}, SpellsMembers ms cs → cs.length < fuel →
      members fuel (cs ++ '\x7d' :: rest) = some (ms, rest)
  | [], hne, _, _, _, _, _ => absurd rfl hne
  | _, _, 0, _, _, _, hlength => absurd hlength (Nat.not_lt_zero _)
  | [(name, v)], _, fuel + 1, cs, rest, h, hlength => by
    obtain ⟨body, named, content, after, hquote, hname, hcolon, hvalue, hafter⟩ :=
      member_of_spells (reads v fuel) h (by omega) (ends_cons (by decide) : Ends ('\x7d' :: rest))
    rw [skipSpace_cons (by decide)] at hafter
    simp only [members, hquote, hname, hcolon, hvalue, hafter]
  | (name, v) :: m :: ms, _, fuel + 1, cs, rest, h, hlength => by
    obtain ⟨first, others, hfirst, hothers, rfl⟩ := h
    simp only [List.length_append, List.length_cons] at hlength
    have hmembers : members fuel (others ++ '\x7d' :: rest) = some (m :: ms, rest) :=
      members_of_spells (m :: ms) (by simp) hothers (by omega)
    obtain ⟨body, named, content, after, hquote, hname, hcolon, hvalue, hafter⟩ :=
      member_of_spells (reads v fuel) hfirst (by omega)
        (ends_cons (by decide) : Ends (',' :: (others ++ '\x7d' :: rest)))
    rw [skipSpace_cons (by decide)] at hafter
    rw [List.append_assoc, List.cons_append]
    simp only [members, hquote, hname, hcolon, hvalue, hafter, hmembers, Option.map_some]

end

theorem parse_of_spells {v : Value} {text : String} (h : Padded v.Spells text.toList) :
    parse text = some v := by
  obtain ⟨after, hvalue, hafter⟩ :=
    value_of_padded (reads v (2 * text.toList.length + 1)) h (by omega) ends_nil
  rw [List.append_nil] at hvalue
  rw [parse, hvalue]
  simp only [hafter]
  rfl

end TreeShell.Json
