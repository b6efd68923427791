import TreeShell.Tree.Node

/-! # Entries with distinct names

Writing never gives a name twice, and what is written in the order of distinct names is the
list that was written. -/

namespace TreeShell.Entries

variable {α : Type}

theorem mem_of_get? {name : String} {value : α} {entries : List (String × α)}
    (h : get? name entries = some value) : (name, value) ∈ entries := by
  induction entries with
  | nil => cases h
  | cons e rest ih =>
    obtain ⟨n, a⟩ := e
    rw [get?] at h
    split at h
    · rename_i hn
      obtain rfl := Option.some.inj h
      exact hn ▸ List.mem_cons_self
    · exact List.mem_cons_of_mem _ (ih h)

theorem get?_of_mem {name : String} {value : α} {entries : List (String × α)}
    (hnodup : (names entries).Nodup) (h : (name, value) ∈ entries) :
    get? name entries = some value := by
  induction entries with
  | nil => cases h
  | cons e rest ih =>
    obtain ⟨n, a⟩ := e
    obtain ⟨hfresh, hrest⟩ := List.nodup_cons.1 hnodup
    rw [get?]
    rcases List.mem_cons.1 h with h | h
    · obtain ⟨rfl, rfl⟩ := Prod.mk.inj h
      exact if_pos rfl
    · have hmem : name ∈ names rest := List.mem_map_of_mem h
      rw [if_neg fun e : n = name => hfresh (e ▸ hmem)]
      exact ih hrest h

/-- To write what is there already changes nothing. -/
theorem put_of_get? {name : String} {value : α} {entries : List (String × α)}
    (h : get? name entries = some value) : put name value entries = entries := by
  induction entries with
  | nil => cases h
  | cons e rest ih =>
    obtain ⟨n, a⟩ := e
    rw [get?] at h
    rw [put]
    split at h
    · rename_i hn
      obtain rfl := Option.some.inj h
      rw [if_pos hn]
    · rename_i hn
      rw [if_neg hn, ih h]

@[simp] theorem put_put (name : String) (was value : α) (entries : List (String × α)) :
    put name value (put name was entries) = put name value entries := by
  induction entries with
  | nil => simp [put]
  | cons e rest ih =>
    obtain ⟨n, a⟩ := e
    by_cases hn : n = name
    · simp [put, hn]
    · simp [put, hn, ih]

theorem mem_put {name : String} {value : α} {entries : List (String × α)} {e : String × α}
    (h : e ∈ put name value entries) : e = (name, value) ∨ e ∈ entries := by
  induction entries with
  | nil => exact Or.inl (List.mem_singleton.1 h)
  | cons e' rest ih =>
    obtain ⟨n, a⟩ := e'
    rw [put] at h
    split at h
    · rename_i hn
      rcases List.mem_cons.1 h with rfl | h
      · exact Or.inl (by rw [hn])
      · exact Or.inr (List.mem_cons_of_mem _ h)
    · rcases List.mem_cons.1 h with rfl | h
      · exact Or.inr List.mem_cons_self
      · rcases ih h with h | h
        · exact Or.inl h
        · exact Or.inr (List.mem_cons_of_mem _ h)

theorem nodup_put {entries : List (String × α)} (h : (names entries).Nodup) (name : String)
    (value : α) : (names (put name value entries)).Nodup := by
  rw [names_put]
  split
  · exact h
  · rename_i hfresh
    rw [List.nodup_append]
    refine ⟨h, by simp, fun n hn m hm => ?_⟩
    obtain rfl := List.mem_singleton.1 hm
    exact fun e => hfresh (e ▸ hn)

theorem put_of_not_mem {name : String} {entries : List (String × α)} (h : name ∉ names entries)
    (value : α) : put name value entries = entries ++ [(name, value)] := by
  induction entries with
  | nil => rfl
  | cons e rest ih =>
    obtain ⟨n, a⟩ := e
    rw [names, List.map_cons, List.mem_cons, not_or] at h
    rw [put, if_neg (Ne.symm h.1), ih h.2, List.cons_append]

/-- One entry has been set: a new name stands at the end, one that was there where it stood. -/
inductive Sets (name : String) (value : α) : (old entries : List (String × α)) → Prop
  | appended {old : List (String × α)} (hnew : name ∉ names old) :
      Sets name value old (old ++ [(name, value)])
  | kept {left right : List (String × α)} {was : α} (hleft : name ∉ names left) :
      Sets name value (left ++ (name, was) :: right) (left ++ (name, value) :: right)

theorem Sets.cons {name : String} {value : α} {e : String × α} (hname : e.1 ≠ name)
    {old entries : List (String × α)} (h : Sets name value old entries) :
    Sets name value (e :: old) (e :: entries) := by
  have hfresh {others : List (String × α)} (hothers : name ∉ names others) :
      name ∉ names (e :: others) := by
    rw [names, List.map_cons, List.mem_cons, not_or]
    exact ⟨Ne.symm hname, hothers⟩
  cases h with
  | appended hnew => exact .appended (hfresh hnew)
  | kept hleft => exact .kept (hfresh hleft)

theorem sets_put (name : String) (value : α) (entries : List (String × α)) :
    Sets name value entries (put name value entries) := by
  induction entries with
  | nil => exact .appended List.not_mem_nil
  | cons e rest ih =>
    obtain ⟨n, a⟩ := e
    by_cases hname : n = name
    · have hfirst : n ∉ names ([] : List (String × α)) := List.not_mem_nil
      rw [put, if_pos hname, ← hname]
      exact .kept hfirst
    · rw [put, if_neg hname]
      exact ih.cons hname

/-! ## Lists of writes -/

/-- The entries after further writes. -/
def writeAll (entries writes : List (String × α)) : List (String × α) :=
  writes.foldl (fun entries write => put write.1 write.2 entries) entries

theorem nodup_writeAll {entries : List (String × α)} (h : (names entries).Nodup)
    (writes : List (String × α)) : (names (writeAll entries writes)).Nodup := by
  induction writes generalizing entries with
  | nil => exact h
  | cons w writes ih => exact ih (nodup_put h w.1 w.2)

theorem mem_writeAll {entries writes : List (String × α)} {e : String × α}
    (h : e ∈ writeAll entries writes) : e ∈ entries ∨ e ∈ writes := by
  induction writes generalizing entries with
  | nil => exact Or.inl h
  | cons w writes ih =>
    rcases ih h with h | h
    · rcases mem_put h with rfl | h
      · exact Or.inr List.mem_cons_self
      · exact Or.inl h
    · exact Or.inr (List.mem_cons_of_mem _ h)

theorem writeAll_of_nodup {entries writes : List (String × α)}
    (h : (names (entries ++ writes)).Nodup) : writeAll entries writes = entries ++ writes := by
  induction writes generalizing entries with
  | nil => simp [writeAll]
  | cons w writes ih =>
    have hfresh : w.1 ∉ names entries := by
      intro hw
      rw [names, List.map_append, List.nodup_append] at h
      exact h.2.2 _ hw _ List.mem_cons_self rfl
    change writeAll (put w.1 w.2 entries) writes = _
    rw [put_of_not_mem hfresh, ih (by simpa using h), List.append_assoc, List.singleton_append]

theorem nodup_ofList (writes : List (String × α)) : (names (ofList writes)).Nodup :=
  nodup_writeAll (by simp [names]) writes

theorem mem_of_mem_ofList {writes : List (String × α)} {e : String × α} (h : e ∈ ofList writes) :
    e ∈ writes := by
  rcases mem_writeAll h with h | h
  · cases h
  · exact h

theorem ofList_of_nodup {writes : List (String × α)} (h : (names writes).Nodup) :
    ofList writes = writes :=
  writeAll_of_nodup h

end TreeShell.Entries
