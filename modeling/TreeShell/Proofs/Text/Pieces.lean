import TreeShell.Text.Basic

/-! # Gluing and cutting

What is glued from parts without the separator falls into these parts again. Without anything
between them the parts just follow each other. -/

namespace TreeShell.Text

variable {α : Type}

theorem glue_concat (sep : List α) {ps : List (List α)} (hne : ps ≠ []) (p : List α) :
    glue sep (ps ++ [p]) = glue sep ps ++ sep ++ p := by
  induction ps with
  | nil => exact absurd rfl hne
  | cons q ps ih =>
    cases ps with
    | nil => rfl
    | cons r rs =>
      have hrest := ih (by simp)
      change q ++ sep ++ glue sep (r :: rs ++ [p]) = q ++ sep ++ glue sep (r :: rs) ++ sep ++ p
      rw [hrest]
      simp only [List.append_assoc]

theorem pieces_of_no_sep {sep : α → Bool} {as : List α} (h : ∀ a ∈ as, sep a = false) :
    pieces sep as = [as] := by
  induction as with
  | nil => rfl
  | cons a as ih =>
    have hrest := ih fun b hb => h b (List.mem_cons_of_mem _ hb)
    simp [pieces, hrest, h a List.mem_cons_self]

/-- A separator cuts a list into what is before it and what is after it. -/
theorem pieces_append_cons {sep : α → Bool} {s : α} (hs : sep s = true) (as bs : List α) :
    pieces sep (as ++ s :: bs) = pieces sep as ++ pieces sep bs := by
  induction as with
  | nil => simp [pieces, hs]
  | cons a as ih =>
    simp only [List.cons_append, pieces, ih]
    split
    · rfl
    · cases hps : pieces sep as with
      | nil => exact absurd hps (pieces_ne_nil sep as)
      | cons p ps => rfl

theorem pieces_append_sep {sep : α → Bool} {s : α} (hs : sep s = true) {as : List α}
    (h : ∀ a ∈ as, sep a = false) (bs : List α) :
    pieces sep (as ++ s :: bs) = as :: pieces sep bs := by
  rw [pieces_append_cons hs, pieces_of_no_sep h, List.singleton_append]

theorem pieces_glue {sep : α → Bool} {s : α} (hs : sep s = true) {ps : List (List α)}
    (hne : ps ≠ []) (h : ∀ p ∈ ps, ∀ a ∈ p, sep a = false) : pieces sep (glue [s] ps) = ps := by
  induction ps with
  | nil => exact absurd rfl hne
  | cons p ps ih =>
    cases ps with
    | nil => exact pieces_of_no_sep (h p List.mem_cons_self)
    | cons q qs =>
      have hrest := ih (by simp) fun r hr => h r (List.mem_cons_of_mem _ hr)
      change pieces sep (p ++ [s] ++ glue [s] (q :: qs)) = _
      rw [List.append_assoc, List.singleton_append,
        pieces_append_sep hs (h p List.mem_cons_self), hrest]

/-- Texts without the separator come out as they were put in. -/
theorem split_join {c : Char} {parts : List String} (hne : parts ≠ [])
    (h : ∀ part ∈ parts, c ∉ part.toList) :
    split c (join (String.singleton c) parts) = parts := by
  have hfree : ∀ p ∈ parts.map String.toList, ∀ d ∈ p, (d == c) = false := by
    intro p hp d hd
    obtain ⟨part, hpart, rfl⟩ := List.mem_map.1 hp
    rw [beq_eq_false_iff_ne]
    rintro rfl
    exact h part hpart hd
  have hpieces : pieces (· == c) (glue [c] (parts.map String.toList)) = parts.map String.toList :=
    pieces_glue (by simp) (by simpa using hne) hfree
  rw [split, join, String.toList_ofList, String.toList_singleton, hpieces]
  simp [Function.comp_def]

/-- Filled parts without the separator are all the filled pieces of what is glued from them. -/
theorem filled_pieces_glue {sep : α → Bool} {s : α} (hs : sep s = true) {ps : List (List α)}
    (h : ∀ p ∈ ps, p ≠ [] ∧ ∀ a ∈ p, sep a = false) :
    (pieces sep (glue [s] ps)).filter (!·.isEmpty) = ps := by
  by_cases hne : ps = []
  · subst hne
    rfl
  · rw [pieces_glue hs hne fun p hp => (h p hp).2, List.filter_eq_self]
    intro p hp
    simpa using (h p hp).1

theorem mem_of_mem_glue {a : α} {sep : List α} {ps : List (List α)} (h : a ∈ glue sep ps) :
    a ∈ sep ∨ ∃ p ∈ ps, a ∈ p := by
  induction ps with
  | nil => cases h
  | cons p ps ih =>
    cases ps with
    | nil => exact Or.inr ⟨p, List.mem_cons_self, h⟩
    | cons q qs =>
      change a ∈ p ++ sep ++ glue sep (q :: qs) at h
      rcases List.mem_append.1 h with h | h
      · rcases List.mem_append.1 h with h | h
        · exact Or.inr ⟨p, List.mem_cons_self, h⟩
        · exact Or.inl h
      · rcases ih h with hsep | ⟨r, hr, ha⟩
        · exact Or.inl hsep
        · exact Or.inr ⟨r, List.mem_cons_of_mem p hr, ha⟩

theorem mem_of_mem_join {c : Char} {sep : String} {parts : List String}
    (h : c ∈ (join sep parts).toList) : c ∈ sep.toList ∨ ∃ part ∈ parts, c ∈ part.toList := by
  rw [join, String.toList_ofList] at h
  rcases mem_of_mem_glue h with hsep | ⟨p, hp, hc⟩
  · exact Or.inl hsep
  · obtain ⟨part, hpart, rfl⟩ := List.mem_map.1 hp
    exact Or.inr ⟨part, hpart, hc⟩

/-! ## Parts that follow each other -/

theorem glue_nil_eq_flatten (ps : List (List α)) : glue [] ps = ps.flatten := by
  induction ps with
  | nil => rfl
  | cons p ps ih =>
    cases ps with
    | nil => simp [glue]
    | cons q qs =>
      rw [List.flatten_cons, ← ih]
      exact congrArg (· ++ glue [] (q :: qs)) (List.append_nil p)

theorem toList_join_empty (parts : List String) :
    (join "" parts).toList = (parts.map String.toList).flatten := by
  rw [join, String.toList_ofList]
  exact glue_nil_eq_flatten _

theorem join_empty_cons (part : String) (parts : List String) :
    join "" (part :: parts) = part ++ join "" parts := by
  rw [← String.toList_inj]
  simp [toList_join_empty]

theorem join_empty_singleton (part : String) : join "" [part] = part :=
  (join_empty_cons part []).trans String.append_empty

theorem join_empty_append (parts others : List String) :
    join "" (parts ++ others) = join "" parts ++ join "" others := by
  rw [← String.toList_inj]
  simp [toList_join_empty]

theorem join_empty_flatMap {β : Type} (f : β → List String) (bs : List β) :
    join "" (bs.flatMap f) = join "" (bs.map fun b => join "" (f b)) := by
  induction bs with
  | nil => rfl
  | cons b bs ih => rw [List.flatMap_cons, List.map_cons, join_empty_append, join_empty_cons, ih]

theorem join_empty_sublist {β : Type} {f g : β → String} {bs : List β}
    (h : ∀ b ∈ bs, (f b).toList.Sublist (g b).toList) :
    (join "" (bs.map f)).toList.Sublist (join "" (bs.map g)).toList := by
  induction bs with
  | nil => exact List.Sublist.refl _
  | cons b bs ih =>
    obtain ⟨hb, hbs⟩ := List.forall_mem_cons.1 h
    rw [List.map_cons, List.map_cons, join_empty_cons, join_empty_cons, String.toList_append,
      String.toList_append]
    exact hb.append (ih hbs)

/-- Where every part has lost characters or is the same, the whole is the same only if every part
is. -/
theorem join_empty_eq_iff {β : Type} {f g : β → String} {bs : List β}
    (h : ∀ b ∈ bs, (f b).toList.Sublist (g b).toList) :
    join "" (bs.map f) = join "" (bs.map g) ↔ ∀ b ∈ bs, f b = g b := by
  refine ⟨fun heq => ?_, fun heq => congrArg (join "") (List.map_congr_left heq)⟩
  induction bs with
  | nil => exact fun b hb => by cases hb
  | cons b bs ih =>
    obtain ⟨hb, hbs⟩ := List.forall_mem_cons.1 h
    rw [List.map_cons, List.map_cons, join_empty_cons, join_empty_cons, ← String.toList_inj,
      String.toList_append, String.toList_append] at heq
    -- The wholes are equally long, so the first part has lost nothing.
    have hlength := congrArg List.length heq
    rw [List.length_append, List.length_append] at hlength
    have hfirst : (f b).toList = (g b).toList := hb.eq_of_length (by
      have hle := hb.length_le
      have hrest := (join_empty_sublist hbs).length_le
      omega)
    rw [hfirst, List.append_cancel_left_eq, String.toList_inj] at heq
    exact List.forall_mem_cons.2 ⟨String.toList_inj.1 hfirst, ih hbs heq⟩

end TreeShell.Text

/-! ## Texts and their bytes

The bytes of a text are those of its characters, one character after the other. A byte below 128
is a character by itself and no part of another one, so a text can be cut at such a character
before its bytes are read as well as after. -/

namespace TreeShell.Text

theorem encode_eq (s : String) : encode s = s.toList.flatMap String.utf8EncodeChar := by
  rw [encode, String.toUTF8_eq_toByteArray, ← String.utf8Encode_toList]
  exact List.toList_data_toByteArray

theorem encode_append (s t : String) : encode (s ++ t) = encode s ++ encode t := by
  simp only [encode_eq, String.toList_append, List.flatMap_append]

theorem decode?_eq_some_iff {bytes : Bytes} {s : String} :
    decode? bytes = some s ↔ bytes = encode s := by
  unfold decode? String.fromUTF8?
  constructor
  · intro h
    split at h
    · rw [← Option.some.inj h]
      rfl
    · cases h
  · rintro rfl
    exact dif_pos s.isValidUTF8

theorem decode?_encode (s : String) : decode? (encode s) = some s := decode?_eq_some_iff.2 rfl

theorem le_toNat_of_mem_map {ns : List Nat} {b : UInt8} (h : b ∈ ns.map UInt8.ofNat)
    (hns : ∀ n ∈ ns, 128 ≤ n % 256) : 128 ≤ b.toNat := by
  obtain ⟨n, hn, rfl⟩ := List.mem_map.1 h
  rw [UInt8.toNat_ofNat']
  exact hns n hn

/-- A byte below 128 is the code of the character that it belongs to. -/
theorem toNat_of_mem_utf8EncodeChar {c : Char} {b : UInt8} (h : b ∈ String.utf8EncodeChar c)
    (hb : b.toNat < 128) : c.toNat = b.toNat := by
  rw [String.utf8EncodeChar.eq_1] at h
  change c.val.toNat = b.toNat
  generalize c.val.toNat = n at h ⊢
  have hlow (ns : List Nat) (hns : ∀ n ∈ ns, 128 ≤ n % 256) : b ∉ ns.map UInt8.ofNat :=
    fun hmem => absurd (le_toNat_of_mem_map hmem hns) (Nat.not_le_of_lt hb)
  split at h
  · rw [List.mem_singleton.1 h, UInt8.toNat_ofNat']
    omega
  · split at h
    · refine absurd h (hlow [n / 64 % 32 + 192, n % 64 + 128] ?_)
      simp only [List.mem_cons, List.not_mem_nil, or_false, forall_eq_or_imp, forall_eq]
      omega
    · split at h
      · refine absurd h (hlow [n / 4096 % 16 + 224, n / 64 % 64 + 128, n % 64 + 128] ?_)
        simp only [List.mem_cons, List.not_mem_nil, or_false, forall_eq_or_imp, forall_eq]
        omega
      · refine absurd h (hlow [n / 262144 % 8 + 240, n / 4096 % 64 + 128, n / 64 % 64 + 128,
          n % 64 + 128] ?_)
        simp only [List.mem_cons, List.not_mem_nil, or_false, forall_eq_or_imp, forall_eq]
        omega

theorem utf8EncodeChar_of_lt {c : Char} (h : c.toNat < 128) :
    String.utf8EncodeChar c = [UInt8.ofNat c.toNat] := by
  rw [String.utf8EncodeChar.eq_1]
  exact if_pos (Nat.le_of_lt_succ h)

/-- An ASCII character stands in a text exactly when its code stands among the bytes. -/
theorem mem_encode_iff {c : Char} (hc : c.toNat < 128) {s : String} :
    UInt8.ofNat c.toNat ∈ encode s ↔ c ∈ s.toList := by
  have hcode : (UInt8.ofNat c.toNat).toNat = c.toNat := by
    rw [UInt8.toNat_ofNat']
    omega
  rw [encode_eq, List.mem_flatMap]
  constructor
  · rintro ⟨d, hd, hmem⟩
    have hsame : d.toNat = c.toNat := by
      rw [toNat_of_mem_utf8EncodeChar hmem (by omega), hcode]
    rwa [Char.toNat_inj.1 hsame] at hd
  · intro h
    exact ⟨c, h, by rw [utf8EncodeChar_of_lt hc]; exact List.mem_singleton_self _⟩

end TreeShell.Text
