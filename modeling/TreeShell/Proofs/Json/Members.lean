import TreeShell.Json.Value
import TreeShell.Proofs.Json.Writing
import TreeShell.Settings.Store

/-! # Records in any order

A record is written as an object with its fields in order. It is looked at by the names of the
fields, so the same is found if they stand in another order or with members of other names among
them, as long as every name is a text; a field that was left out is found missing. A record type
that goes by what is found is read back from all these objects. -/

namespace TreeShell.Json

variable {name : String} {v : Value} {d : Doc} {omitted : List String}
variable {fs : List (String × Doc)} {members others : List (Option String × Value)}

/-! ## One member -/

theorem filter_name_eq_nil_iff :
    members.filter (·.1 == some name) = [] ↔ ∀ m ∈ members, m.1 ≠ some name := by
  simp [List.filter_eq_nil_iff]

theorem member?_eq_none_iff :
    member? name members = some none ↔ ∀ m ∈ members, m.1 ≠ some name := by
  rw [← filter_name_eq_nil_iff, member?]
  generalize members.filter (·.1 == some name) = found
  rcases found with - | ⟨m, - | ⟨n, ms⟩⟩ <;> simp

theorem member?_eq_some_iff :
    member? name members = some (some v) ↔
      ∃ before after, members = before ++ (some name, v) :: after ∧
        ∀ m ∈ before ++ after, m.1 ≠ some name := by
  have hfilter : member? name members = some (some v) ↔
      ∃ spelt, members.filter (·.1 == some name) = [(spelt, v)] := by
    rw [member?]
    generalize members.filter (·.1 == some name) = found
    rcases found with - | ⟨m, - | ⟨n, ms⟩⟩ <;> simp [Prod.ext_iff]
  rw [hfilter]
  constructor
  · rintro ⟨spelt, hone⟩
    obtain ⟨before, after, rfl, hbefore, hname, hafter⟩ := List.filter_eq_cons_iff.1 hone
    obtain rfl : spelt = some name := beq_iff_eq.1 hname
    refine ⟨before, after, rfl, List.forall_mem_append.2 ⟨fun m hm => ?_, ?_⟩⟩
    · simpa using hbefore m hm
    · exact filter_name_eq_nil_iff.1 hafter
  · rintro ⟨before, after, rfl, hothers⟩
    obtain ⟨hbefore, hafter⟩ := List.forall_mem_append.1 hothers
    refine ⟨some name, ?_⟩
    rw [List.filter_append, filter_name_eq_nil_iff.2 hbefore,
      List.filter_cons_of_pos (by exact beq_self_eq_true _), filter_name_eq_nil_iff.2 hafter]
    rfl

/-! ## The members that make up a record -/

def Doc.fields : Doc → List (String × Doc)
  | .record fs => fs
  | _ => []

def names (fs : List (String × Doc)) : List String := fs.map Prod.fst

/-- The fields whose names are not omitted. -/
def kept (omitted : List String) (fs : List (String × Doc)) : List (String × Doc) :=
  fs.filter fun f => f.1 ∉ omitted

/-- The members are the fields that are kept, in any order, and among them others, none of which has
the name of a field. -/
structure Mixes (fs : List (String × Doc)) (omitted : List String)
    (others members : List (Option String × Value)) : Prop where
  perm : members.Perm (membersOf (kept omitted fs) ++ others)
  unknown : ∀ m ∈ others, ∀ name ∈ names fs, m.1 ≠ some name

theorem membersOf_eq_map (fs : List (String × Doc)) :
    membersOf fs = fs.map fun f => (some f.1, f.2.value) := by
  induction fs with
  | nil => rfl
  | cons f fs ih => rw [membersOf, ih, List.map_cons]

theorem mem_kept : (name, d) ∈ kept omitted fs ↔ (name, d) ∈ fs ∧ name ∉ omitted := by
  simp [kept]

theorem kept_nil (fs : List (String × Doc)) : kept [] fs = fs := by
  simp [kept]

theorem mixes_self (fs : List (String × Doc)) : Mixes fs [] [] (membersOf fs) where
  perm := by rw [kept_nil, List.append_nil]
  unknown := List.forall_mem_nil _

theorem mem_membersOf {m : Option String × Value} (h : m ∈ membersOf fs) :
    ∃ name d, (name, d) ∈ fs ∧ m = (some name, d.value) := by
  rw [membersOf_eq_map] at h
  obtain ⟨⟨name, d⟩, hf, rfl⟩ := List.mem_map.1 h
  exact ⟨name, d, hf, rfl⟩

theorem Mixes.member?_of_omitted (h : Mixes fs omitted others members) (hname : name ∈ names fs)
    (homitted : name ∈ omitted) : member? name members = some none := by
  rw [member?_eq_none_iff]
  intro m hm
  rcases List.mem_append.1 (h.perm.mem_iff.1 hm) with hm | hm
  · obtain ⟨other, d, hkept, rfl⟩ := mem_membersOf hm
    rintro heq
    obtain rfl := Option.some.inj heq
    exact (mem_kept.1 hkept).2 homitted
  · exact h.unknown m hm name hname

theorem Mixes.member?_of_kept (h : Mixes fs omitted others members) (hnodup : (names fs).Nodup)
    (hf : (name, d) ∈ fs) (hkept : name ∉ omitted) :
    member? name members = some (some d.value) := by
  obtain ⟨above, below, hsplit⟩ := List.append_of_mem (mem_kept.2 ⟨hf, hkept⟩)
  have hperm : members.Perm
      (membersOf above ++ (some name, d.value) :: (membersOf below ++ others)) := by
    have hperm := h.perm
    rw [hsplit] at hperm
    simpa [membersOf_eq_map] using hperm
  obtain ⟨before, after, rfl⟩ : ∃ before after, members = before ++ (some name, d.value) :: after :=
    List.append_of_mem (hperm.mem_iff.2 (by simp))
  refine member?_eq_some_iff.2 ⟨before, after, rfl, fun m hm => ?_⟩
  -- Taken out of both sides, the field leaves the other fields and the unknown members.
  have hrest : m ∈ membersOf above ++ (membersOf below ++ others) :=
    ((List.perm_middle.symm.trans hperm).trans List.perm_middle).cons_inv.mem_iff.1 hm
  have hother : ∀ f ∈ above ++ below, f.1 ≠ name := by
    have hdistinct : (names (kept omitted fs)).Nodup :=
      hnodup.sublist (List.filter_sublist.map Prod.fst)
    rw [hsplit, names, List.map_append, List.map_cons] at hdistinct
    have hnot : name ∉ above.map Prod.fst ++ below.map Prod.fst :=
      (List.nodup_cons.1 (List.perm_middle.nodup_iff.1 hdistinct)).1
    rw [← List.map_append] at hnot
    rintro f hmem rfl
    exact hnot (List.mem_map_of_mem hmem)
  rw [← List.append_assoc, List.mem_append, List.mem_append] at hrest
  rcases hrest with (hm | hm) | hm
  · obtain ⟨other, e, hf, rfl⟩ := mem_membersOf hm
    exact fun heq => hother _ (List.mem_append_left _ hf) (Option.some.inj heq)
  · obtain ⟨other, e, hf, rfl⟩ := mem_membersOf hm
    exact fun heq => hother _ (List.mem_append_right _ hf) (Option.some.inj heq)
  · exact h.unknown m hm name (List.mem_map_of_mem hf)

/-- What is found of a field. -/
def found (omitted : List String) (f : String × Doc) : Option Value :=
  if f.1 ∈ omitted then none else some f.2.value

theorem Mixes.member? (h : Mixes fs omitted others members) (hnodup : (names fs).Nodup)
    {f : String × Doc} (hf : f ∈ fs) : Json.member? f.1 members = some (found omitted f) := by
  rw [found]
  split
  · rename_i homitted
    exact h.member?_of_omitted (List.mem_map_of_mem hf) homitted
  · rename_i hkept
    exact h.member?_of_kept hnodup hf hkept

theorem Mixes.mapM_member? (h : Mixes fs omitted others members) (hnodup : (names fs).Nodup) :
    (names fs).mapM (Json.member? · members) = some (fs.map (found omitted)) := by
  have hall : ∀ gs ⊆ fs, (names gs).mapM (Json.member? · members) =
      some (gs.map (found omitted)) := by
    intro gs hgs
    induction gs with
    | nil => rfl
    | cons g gs ih =>
      obtain ⟨hg, hgs⟩ := List.cons_subset.1 hgs
      have ih : (gs.map Prod.fst).mapM (Json.member? · members) = _ := ih hgs
      simp [names, h.member? hnodup hg, ih]
  exact hall fs (List.Subset.refl fs)

theorem Mixes.all_isSome_iff (h : Mixes fs omitted others members) :
    members.all (·.1.isSome) = true ↔ ∀ m ∈ others, m.1 ≠ none := by
  have hfields : ∀ m ∈ membersOf (kept omitted fs), m.1.isSome = true := by
    intro m hm
    obtain ⟨name, d, -, rfl⟩ := mem_membersOf hm
    rfl
  simp only [List.all_eq_true, h.perm.mem_iff, List.mem_append, or_imp, forall_and,
    Option.isSome_iff_ne_none]
  exact and_iff_right fun m hm => Option.isSome_iff_ne_none.1 (hfields m hm)

theorem Mixes.fields? (h : Mixes fs omitted others members) (hnodup : (names fs).Nodup)
    (hnames : ∀ m ∈ others, m.1 ≠ none) :
    (Value.object members).fields? (names fs) = some (fs.map (found omitted)) := by
  rw [Value.fields?, if_pos (h.all_isSome_iff.2 hnames), h.mapM_member? hnodup]

theorem Mixes.fields?_eq_none (h : Mixes fs omitted others members)
    (hnames : ¬ ∀ m ∈ others, m.1 ≠ none) :
    (Value.object members).fields? (names fs) = none := by
  rw [Value.fields?, if_neg (mt h.all_isSome_iff.1 hnames)]

/-! ## Types of records -/

/-- A value is written as an object with its fields and read from it again. It is also read from
every other spelling of that object, in any order of the fields and with members of other names and
any values among them; what is read without the omitted fields is what `lacking` says. But with a
name that is no text the object is refused. -/
structure ReadsBack {α : Type} (fields : α → List (String × Doc)) (write : α → String)
    (read : String → Option α) (lacking : List String → α → Option α) : Prop where
  written : ∀ a, write a = (Doc.record (fields a)).compact ∧ read (write a) = some a
  spelled : ∀ a omitted others members text, Mixes (fields a) omitted others members →
    Padded (Value.object members).Spells text.toList →
    ((∀ m ∈ others, m.1 ≠ none) → read text = lacking omitted a) ∧
      (¬ (∀ m ∈ others, m.1 ≠ none) → read text = none)

/-- It is enough that the reader goes by what it finds of the fields. -/
theorem readsBack_of_found {α : Type} {fields : α → List (String × Doc)} {write : α → String}
    {read : String → Option α} {lacking : List String → α → Option α} {ofValue? : Value → Option α}
    (keys : List String) (hnodup : keys.Nodup) (hkeys : ∀ a, names (fields a) = keys)
    (hwrite : ∀ a, write a = (Doc.record (fields a)).compact)
    (hread : ∀ text, read text = (parse text).bind ofValue?)
    (hwhole : ∀ a, lacking [] a = some a)
    (hfound : ∀ a omitted v, v.fields? keys = some ((fields a).map (found omitted)) →
      ofValue? v = lacking omitted a)
    (hnone : ∀ v, v.fields? keys = none → ofValue? v = none) :
    ReadsBack fields write read lacking := by
  have hspelled : ∀ a omitted others members text, Mixes (fields a) omitted others members →
      Padded (Value.object members).Spells text.toList →
      ((∀ m ∈ others, m.1 ≠ none) → read text = lacking omitted a) ∧
        (¬ (∀ m ∈ others, m.1 ≠ none) → read text = none) := by
    intro a omitted others members text hmixes htext
    rw [hread, parse_of_spells htext, Option.bind_some]
    have hdistinct : (names (fields a)).Nodup := hkeys a ▸ hnodup
    refine ⟨fun hnames => hfound a omitted _ ?_, fun hnames => hnone _ ?_⟩
    · exact hkeys a ▸ hmixes.fields? hdistinct hnames
    · exact hkeys a ▸ hmixes.fields?_eq_none hnames
  refine ⟨fun a => ⟨hwrite a, ?_⟩, hspelled⟩
  have htext : Padded (Value.object (membersOf (fields a))).Spells (write a).toList := by
    rw [hwrite, Doc.compact, String.toList_ofList]
    exact padded_of (spells_compact (.record (fields a)))
  rw [(hspelled a [] [] _ _ (mixes_self _) htext).1 (List.forall_mem_nil _), hwhole]

end TreeShell.Json

/-! ## Settings are read back from their text

The font size is read back as it was, however large it is, and so are the names of the theme and
the cursor style. -/

namespace TreeShell

theorem Json.decimal_toDigits (n : Nat) : Json.decimal (Nat.toDigits 10 n) = n :=
  Nat.ofDigitChars_toDigits (by decide) (by decide)

theorem Json.natural?_number (n : Nat) : (Json.Doc.number n).value.natural? = some n := by
  simp [Json.Doc.value, Json.Value.natural?, Json.Numeral.natural?, Json.decimal_toDigits]

namespace Settings

theorem fontSize?_number (size : UInt32) :
    fontSize? (Json.Doc.number size.toNat).value = some size := by
  simp only [fontSize?, Json.natural?_number]
  rw [if_pos size.toNat_lt, UInt32.ofNat_toNat]

theorem theme?_text (theme : Theme) : theme? (Json.Doc.text theme.name).value = some theme := by
  cases theme <;> rfl

theorem cursorStyle?_text (style : CursorStyle) :
    cursorStyle? (Json.Doc.text style.name).value = some style := by
  cases style <;> rfl

/-- The settings with the defaults in place of what is omitted. -/
def lacking (omitted : List String) (s : Settings) : Option Settings :=
  some
    { fontSize := if "fontSize" ∈ omitted then ({} : Settings).fontSize else s.fontSize
      theme := if "theme" ∈ omitted then ({} : Settings).theme else s.theme
      cursorStyle := if "cursorStyle" ∈ omitted then ({} : Settings).cursorStyle else s.cursorStyle }

theorem orDefault_found {α : Type} {read : Json.Value → Option α} {d : Json.Doc} {a : α}
    (hread : read d.value = some a) (default : α) (omitted : List String) (name : String) :
    orDefault default read (Json.found omitted (name, d)) =
      some (if name ∈ omitted then default else a) := by
  rw [Json.found]
  split
  · rfl
  · exact hread

theorem ofValue?_of_found {s : Settings} {omitted : List String} {v : Json.Value}
    (h : v.fields? ["fontSize", "theme", "cursorStyle"] =
      some (s.doc.fields.map (Json.found omitted))) : ofValue? v = lacking omitted s := by
  rw [ofValue?, h]
  simp only [doc, Json.Doc.fields, List.map_cons, List.map_nil,
    orDefault_found (fontSize?_number s.fontSize), orDefault_found (theme?_text s.theme),
    orDefault_found (cursorStyle?_text s.cursorStyle)]
  rfl

theorem readsBack : Json.ReadsBack (fun s => s.doc.fields) toJson ofJson? lacking := by
  refine Json.readsBack_of_found ["fontSize", "theme", "cursorStyle"] (by decide) (fun _ => rfl)
    (fun _ => rfl) (fun _ => rfl) (fun _ => rfl) (fun s omitted v h => ofValue?_of_found h) ?_
  intro v h
  rw [ofValue?, h]

theorem ofJson?_toJson (s : Settings) : ofJson? s.toJson = some s := (readsBack.written s).2

end Settings

end TreeShell
