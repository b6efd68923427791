import TreeShell.Proofs.Json.Accepting
import TreeShell.Proofs.Json.Members
import TreeShell.Proofs.Suggest.Fencing

/-! # Which replies are understood

A reply says a value if its body spells it. The value should be a list of strings, or a record
whose suggestions are one; and every reply that says such a value is understood, if the names in
the record are texts. One shape more is let in: the record as a list of its only field. -/

namespace TreeShell.Suggest
open Json (Value Padded)
open Text (AllBlank IsTrimmed)

variable {l : List String} {v : Value} {members : List (Option String × Value)} {raw : String}

/-! ## Values that carry suggestions -/

/-- The value of each of these texts. -/
def textsOf (l : List String) : List Value := l.map fun s => .string (some s)

theorem text?_eq_some_iff {text : String} : v.text? = some text ↔ v = .string (some text) := by
  cases v <;> simp [Value.text?]

theorem mapM_text?_eq_some_iff {items : List Value} :
    items.mapM Value.text? = some l ↔ items = textsOf l := by
  induction items generalizing l with
  | nil => cases l <;> simp [textsOf]
  | cons v items ih =>
    cases l with
    | nil =>
      simp [textsOf, Option.bind_eq_some_iff]
    | cons text l =>
      simp only [List.mapM_cons, Option.bind_eq_bind, Option.bind_eq_some_iff,
        text?_eq_some_iff, ih]
      simp [textsOf]

theorem texts?_eq_some_iff : v.texts? = some l ↔ v = .array (textsOf l) := by
  cases v <;> simp [Value.texts?, mapM_text?_eq_some_iff]

/-- The two shapes that are asked for. A record without the field has no suggestions. -/
inductive Documented (l : List String) : Value → Prop
  | list : Documented l (.array (textsOf l))
  | record {before after : List (Option String × Value)}
      (honly : ∀ m ∈ before ++ after, m.1 ≠ some "suggestions") :
      Documented l (.object (before ++ (some "suggestions", .array (textsOf l)) :: after))
  | nothing {members : List (Option String × Value)}
      (hnone : ∀ m ∈ members, m.1 ≠ some "suggestions") (hempty : l = []) :
      Documented l (.object members)

/-- No name of a member has half of a surrogate pair by itself. -/
def HasNames : Value → Prop
  | .object members => ∀ m ∈ members, m.1 ≠ none
  | _ => True

theorem ofValue?_array {items : List Value} : Response.ofValue? (.array items) = some ⟨l⟩ ↔
    items = [] ∧ l = [] ∨ items = [.array (textsOf l)] := by
  rcases items with - | ⟨list, - | ⟨other, items⟩⟩
  · simp [Response.ofValue?, Value.fields?, eq_comm]
  · simp [Response.ofValue?, Value.fields?, texts?_eq_some_iff]
  · simp [Response.ofValue?, Value.fields?]

theorem ofValue?_object : Response.ofValue? (.object members) = some ⟨l⟩ ↔
    Documented l (.object members) ∧ HasNames (.object members) := by
  have hfield : Response.ofValue? (.object members) = some ⟨l⟩ ↔
      (∀ m ∈ members, m.1 ≠ none) ∧ (Json.member? "suggestions" members = some none ∧ l = [] ∨
        Json.member? "suggestions" members = some (some (.array (textsOf l)))) := by
    have hone : ["suggestions"].mapM (Json.member? · members) =
        (Json.member? "suggestions" members).map fun given => [given] := by
      cases hmember : Json.member? "suggestions" members <;> simp [hmember]
    have hall : members.all (·.1.isSome) = true ↔ ∀ m ∈ members, m.1 ≠ none := by
      simp [Option.isSome_iff_ne_none]
    rw [← hall, Response.ofValue?, Value.fields?, hone]
    by_cases hnames : members.all (·.1.isSome) = true
    · rw [if_pos hnames]
      rcases Json.member? "suggestions" members with - | - | list
      · simp
      · simp [hnames, eq_comm]
      · simp [hnames, texts?_eq_some_iff]
    · rw [if_neg hnames]
      simp [hnames]
  rw [hfield, Json.member?_eq_none_iff, Json.member?_eq_some_iff]
  constructor
  · rintro ⟨hnames, ⟨hnone, hempty⟩ | ⟨before, after, rfl, honly⟩⟩
    · exact ⟨.nothing hnone hempty, hnames⟩
    · exact ⟨.record honly, hnames⟩
  · rintro ⟨hdocumented, hnames⟩
    refine ⟨hnames, ?_⟩
    cases hdocumented with
    | record honly => exact .inr ⟨_, _, rfl, honly⟩
    | nothing hnone hempty => exact .inl ⟨hnone, hempty⟩

/-- What is read from a value, as a list or as a response. -/
def suggested? (v : Value) : Option (List String) :=
  v.texts?.or ((Response.ofValue? v).map (·.suggestions))

theorem suggested?_eq_some_iff :
    suggested? v = some l ↔ Documented l v ∧ HasNames v ∨ v = .array [.array (textsOf l)] := by
  have hresponse : (Response.ofValue? v).map (·.suggestions) = some l ↔
      Response.ofValue? v = some ⟨l⟩ := by
    rw [Option.map_eq_some_iff]
    exact ⟨fun ⟨⟨_⟩, h, rfl⟩ => h, fun h => ⟨_, h, rfl⟩⟩
  rw [suggested?, Option.or_eq_some_iff, hresponse, texts?_eq_some_iff]
  cases v with
  | array items =>
    rw [ofValue?_array]
    constructor
    · rintro (hlist | ⟨-, ⟨rfl, rfl⟩ | rfl⟩)
      · exact .inl ⟨hlist ▸ .list, trivial⟩
      · exact .inl ⟨.list, trivial⟩
      · exact .inr rfl
    · rintro (⟨⟨⟩, -⟩ | hnested)
      · exact .inl rfl
      · cases hnested
        exact .inr ⟨rfl, .inr rfl⟩
  | object members => simp [ofValue?_object, Value.texts?]
  | null | bool | number | string => exact ⟨nofun, nofun⟩

/-! ## Replies -/

/-- The body of the reply spells this value. -/
def Says (raw : String) (v : Value) : Prop :=
  ∃ body, Wraps body raw.toList ∧ Padded v.Spells body

/-- What is left of a reply without its wrapping. -/
def bodyOf (raw : String) : String :=
  String.ofList (unfenced (Text.cutBlank (Text.skipBlank raw.toList)))

theorem says_iff : Says raw v ↔ Json.parse (bodyOf raw) = some v := by
  simp [Says, bodyOf, wraps_iff, Json.parse_eq_some_iff]

theorem Says.unique {w : Value} (hv : Says raw v) (hw : Says raw w) : v = w :=
  Option.some.inj ((says_iff.1 hv).symm.trans (says_iff.1 hw))

theorem ofReply_eq (raw : String) :
    ofReply raw = match (Json.parse (bodyOf raw)).bind suggested? with
      | some l => .ok l
      | none => .error .malformed := by
  delta ofReply
  dsimp only
  rw [← bodyOf, Response.ofJson?]
  rcases Json.parse (bodyOf raw) with - | v
  · rfl
  · simp only [Option.bind_some, suggested?]
    cases v.texts? <;> cases Response.ofValue? v <;> rfl

theorem ofReply_eq_ok_iff : ofReply raw = .ok l ↔ ∃ v, Says raw v ∧ suggested? v = some l := by
  simp only [says_iff, ← Option.bind_eq_some_iff]
  rw [ofReply_eq]
  cases (Json.parse (bodyOf raw)).bind suggested? <;> simp

theorem ofReply_eq_malformed (h : ∀ l, ofReply raw ≠ .ok l) : ofReply raw = .error .malformed := by
  rw [ofReply_eq] at *
  cases hread : (Json.parse (bodyOf raw)).bind suggested? with
  | none => rfl
  | some l => exact (h l (by rw [hread])).elim

/-- A reply that is understood says a value of one of the shapes that are asked for, with texts for
names, or the record as a list of its field. Every other reply is malformed. -/
theorem understood_iff (raw : String) :
    (∀ l, ofReply raw = .ok l ↔ ∃ v, Says raw v ∧
      (Documented l v ∧ HasNames v ∨ v = .array [.array (textsOf l)])) ∧
    ((∀ l, ofReply raw ≠ .ok l) → ofReply raw = .error .malformed) := by
  refine ⟨fun l => ?_, ofReply_eq_malformed⟩
  simp only [ofReply_eq_ok_iff, suggested?_eq_some_iff]

/-- Not all that is understood has a shape that is asked for. -/
theorem understood_undocumented :
    ¬ ∀ raw l, ofReply raw = .ok l → ∃ v, Says raw v ∧ Documented l v := by
  intro h
  have hbody : bodyOf "[[\"a\"]]" = "[[\"a\"]]" := by decide +kernel
  have hparse : Json.parse "[[\"a\"]]" = some (.array [.array (textsOf ["a"])]) := by
    rw [Json.parse, show "[[\"a\"]]".toList = ['[', '[', '"', 'a', '"', ']', ']'] from rfl]
    rfl
  have hnested : Says "[[\"a\"]]" (.array [.array (textsOf ["a"])]) :=
    says_iff.2 (by rw [hbody, hparse])
  have hok : ofReply "[[\"a\"]]" = .ok ["a"] :=
    ofReply_eq_ok_iff.2 ⟨_, hnested, suggested?_eq_some_iff.2 (.inr rfl)⟩
  obtain ⟨v, hv, hdocumented⟩ := h _ _ hok
  rw [hv.unique hnested] at hdocumented
  cases hdocumented

/-! ## Replies that are wrapped as they should be -/

theorem allBlank_of_isBlank {cs : List Char} (h : Json.IsBlank cs) : AllBlank cs := by
  intro c hc
  have hspace := h c hc
  simp only [Json.isSpace, Bool.or_eq_true, beq_iff_eq] at hspace
  rcases hspace with ((rfl | rfl) | rfl) | rfl <;> decide

/-- The spelling of a list or a record stands between its brackets, so nothing is trimmed off it and
it does not open a block. -/
theorem Documented.isTrimmed {token : List Char} (h : Documented l v) (htoken : v.Spells token) :
    IsTrimmed token ∧ ¬ fence <+: token := by
  have hbrackets : ∃ opening body closing, token = [opening] ++ (body ++ [closing]) ∧
      opening ≠ '`' ∧ Text.isBlank opening = false ∧ Text.isBlank closing = false := by
    cases h with
    | list | record | nothing =>
      obtain ⟨body, -, rfl⟩ := htoken
      exact ⟨_, body, _, rfl, by decide, by decide, by decide⟩
  obtain ⟨opening, body, closing, rfl, hopening, hfirst, hlast⟩ := hbrackets
  refine ⟨.around (Text.isTrimmed_singleton hfirst) (Text.isTrimmed_singleton hlast)
    (List.cons_ne_nil _ _) (List.cons_ne_nil _ _) body, ?_⟩
  rintro ⟨rest, hrest⟩
  exact hopening (List.cons.inj hrest).1.symm

/-- The replies that present a JSON text: there are only blanks around it, or it is in a fenced
block whose first line goes on with any words. -/
inductive Presents (text : String) : String → Prop
  | plain {before after : String} (hbefore : AllBlank before.toList)
      (hafter : AllBlank after.toList) : Presents text (before ++ text ++ after)
  | fenced {before info lead trail after : String} (hbefore : AllBlank before.toList)
      (hinfo : '\n' ∉ info.toList) (hlead : AllBlank lead.toList) (htrail : AllBlank trail.toList)
      (hafter : AllBlank after.toList) :
      Presents text
        (before ++ "```" ++ info ++ "\n" ++ lead ++ text ++ trail ++ "```" ++ after)

/-- Whatever the texts of the value contain, only what is around its spelling is taken off. -/
theorem says_of_presents {text : String} (h : Documented l v) (htext : Padded v.Spells text.toList)
    (hraw : Presents text raw) : Says raw v := by
  obtain ⟨pre, token, post, hpre, htoken, hpost, heq⟩ := htext
  obtain ⟨htrimmed, hopen⟩ := h.isTrimmed htoken
  refine ⟨token, ?_, [], token, [], List.forall_mem_nil _, htoken, List.forall_mem_nil _, by simp⟩
  -- The blanks around the value go with those of the reply, so the token alone is the body.
  replace hpre := allBlank_of_isBlank hpre
  replace hpost := allBlank_of_isBlank hpost
  cases hraw with
  | @plain before after hbefore hafter =>
    exact ⟨before.toList ++ pre, token, post ++ after.toList,
      Text.allBlank_append.2 ⟨hbefore, hpre⟩, Text.allBlank_append.2 ⟨hpost, hafter⟩, htrimmed,
      htrimmed, .bare hopen, by simp [heq]⟩
  | @fenced before info lead trail after hbefore hinfo hlead htrail hafter =>
    have hblock : IsTrimmed (fence ++ (info.toList ++ '\n' :: (lead.toList ++ pre ++
        (token ++ (post ++ trail.toList ++ fence))))) := by
      have haround := Text.IsTrimmed.around isTrimmed_fence isTrimmed_fence (by decide) (by decide)
        (info.toList ++ '\n' :: (lead.toList ++ pre ++ (token ++ (post ++ trail.toList))))
      simpa only [List.append_assoc, List.cons_append] using haround
    exact ⟨before.toList, _, after.toList, hbefore, hafter, hblock, htrimmed,
      .closed hinfo (Text.allBlank_append.2 ⟨hlead, hpre⟩) (Text.allBlank_append.2 ⟨hpost, htrail⟩),
      by simp [heq, fence]⟩

theorem ofReply_of_nameless (h : Documented l v) (htold : Says raw v) (hnames : ¬ HasNames v) :
    ofReply raw = .error .malformed := by
  refine ofReply_eq_malformed fun texts hok => ?_
  obtain ⟨w, hw, hl⟩ := ofReply_eq_ok_iff.1 hok
  rw [hw.unique htold, suggested?_eq_some_iff] at hl
  rcases hl with ⟨-, hnames'⟩ | rfl
  · exact hnames hnames'
  · exact hnames trivial

/-- A record whose first name is half of a surrogate pair. -/
def nameless : Value := .object [(none, .null), (some "suggestions", .array (textsOf ["k"]))]

theorem documented_nameless : Documented ["k"] nameless :=
  @Documented.record ["k"] [(none, .null)] [] (by simp)

theorem not_hasNames_nameless : ¬ HasNames nameless := fun h => h (none, .null) (by simp) rfl

theorem spells_nameless :
    Padded nameless.Spells "\x7b\"\\ud800\":null,\"suggestions\":[\"k\"]\x7d".toList := by
  refine Json.parse_eq_some_iff.1 ?_
  simp [nameless, textsOf, Json.parse, Json.value, Json.items, Json.members, Json.stringBody,
    Json.points, Json.unit?, Json.hexDigit?, Json.characters?, Json.isHighHalf, Json.isLowHalf,
    Json.skipSpace, Json.isSpace, Text.after?]

theorem presents_self (text : String) : Presents text text := by
  have hplain : Presents text ("" ++ text ++ "") := .plain Text.allBlank_nil Text.allBlank_nil
  rwa [String.empty_append, String.append_empty] at hplain

/-- A list of texts, or a record of one, is read in every spelling and every wrapping, whatever the
texts contain. But if a name in the record is no text, then the reply is malformed. -/
theorem ofReply_presented {text : String} (h : Documented l v) (htext : Padded v.Spells text.toList)
    (hraw : Presents text raw) :
    (HasNames v → ofReply raw = .ok l) ∧ (¬ HasNames v → ofReply raw = .error .malformed) := by
  have htold := says_of_presents h htext hraw
  constructor
  · intro hnames
    exact ofReply_eq_ok_iff.2 ⟨v, htold, suggested?_eq_some_iff.2 (.inl ⟨h, hnames⟩)⟩
  · exact ofReply_of_nameless h htold

/-- A list of a fence and a quote in a fenced block, and the record without a name. -/
theorem ofReply_presented_fence :
    ofReply "```json\n[\"```\\n\", \"\\\"\"]\n```\n" = .ok ["```\n", "\""] ∧
      ofReply "\x7b\"\\ud800\":null,\"suggestions\":[\"k\"]\x7d" = .error .malformed := by
  constructor
  · have hspells : Padded (Value.array (textsOf ["```\n", "\""])).Spells
        "[\"```\\n\", \"\\\"\"]".toList := by
      refine Json.parse_eq_some_iff.1 ?_
      simp [textsOf, Json.parse, Json.value, Json.items, Json.stringBody, Json.points,
        Json.escaped?, Json.characters?, Json.isHighHalf, Json.isLowHalf, Json.skipSpace,
        Json.isSpace]
    have hraw : Presents "[\"```\\n\", \"\\\"\"]"
        ("" ++ "```" ++ "json" ++ "\n" ++ "" ++ "[\"```\\n\", \"\\\"\"]" ++ "\n" ++ "```" ++
          "\n") :=
      .fenced (by decide) (by decide) (by decide) (by decide) (by decide)
    exact (ofReply_presented .list hspells hraw).1 trivial
  · exact (ofReply_presented documented_nameless spells_nameless (presents_self _)).2
      not_hasNames_nameless

/-- Not every record with a list of texts is read. -/
theorem not_every_record_read :
    ¬ ∀ (l : List String) (before after : List (Option String × Value)) (text raw : String),
      (∀ m ∈ before ++ after, m.1 ≠ some "suggestions") →
      Padded (Value.object (before ++ (some "suggestions", .array (textsOf l)) :: after)).Spells
        text.toList →
      Presents text raw → ofReply raw = .ok l := by
  intro h
  have hok := h ["k"] [(none, .null)] [] _ _ (by simp) spells_nameless (presents_self _)
  have htold := says_of_presents documented_nameless spells_nameless (presents_self _)
  rw [ofReply_of_nameless documented_nameless htold not_hasNames_nameless] at hok
  cases hok

end TreeShell.Suggest
