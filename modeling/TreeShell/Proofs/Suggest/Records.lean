import TreeShell.Proofs.Json.Members
import TreeShell.Proofs.Suggest.Replies

/-! # What is saved and sent is read back

Settings are saved as records, requests for suggestions and the responses to them are sent as
records. All three are read back as they were written, and from every object that has their fields
in some order and other members among them. Settings and responses have defaults for what is left
out, a request must have all its fields. -/

namespace TreeShell

namespace Suggest
open Json (Value Doc)

theorem texts?_list (l : List String) : (Doc.list (l.map .text)).value.texts? = some l := by
  have hvalues : ∀ l : List String, Json.valuesOf (l.map .text) = textsOf l := by
    intro l
    induction l with
    | nil => rfl
    | cons s l ih => rw [List.map_cons, Json.valuesOf, ih, textsOf, textsOf, List.map_cons, Doc.value]
  rw [texts?_eq_some_iff, Doc.value, hvalues]

namespace Request

/-- There is no request without one of its fields. -/
def lacking (omitted : List String) (r : Request) : Option Request :=
  if "userInput" ∈ omitted ∨ "commandHistory" ∈ omitted then none else some r

theorem ofValue?_of_found {r : Request} {omitted : List String} {v : Value}
    (h : v.fields? ["userInput", "commandHistory"] =
      some (r.doc.fields.map (Json.found omitted))) : ofValue? v = lacking omitted r := by
  have hinput : (Doc.text r.input).value.text? = some r.input := rfl
  rw [ofValue?, h, lacking]
  simp only [doc, Doc.fields, List.map_cons, List.map_nil, Json.found]
  by_cases huser : "userInput" ∈ omitted
  · simp [huser]
  · by_cases hcommands : "commandHistory" ∈ omitted
    · simp [huser, hcommands]
    · simp [huser, hcommands, hinput, texts?_list]

theorem readsBack : Json.ReadsBack (fun r => r.doc.fields) toJson ofJson? lacking := by
  refine Json.readsBack_of_found ["userInput", "commandHistory"] (by decide) (fun _ => rfl)
    (fun _ => rfl) (fun _ => rfl) (fun _ => rfl) (fun r omitted v h => ofValue?_of_found h) ?_
  intro v h
  rw [ofValue?, h]

end Request

namespace Response

/-- Without its field a response has no suggestions. -/
def lacking (omitted : List String) (r : Response) : Option Response :=
  some (if "suggestions" ∈ omitted then ⟨[]⟩ else r)

theorem ofValue?_of_found {r : Response} {omitted : List String} {v : Value}
    (h : v.fields? ["suggestions"] = some (r.doc.fields.map (Json.found omitted))) :
    ofValue? v = lacking omitted r := by
  rw [ofValue?, h, lacking]
  simp only [doc, Doc.fields, List.map_cons, List.map_nil, Json.found]
  by_cases hlist : "suggestions" ∈ omitted
  · simp [hlist]
  · simp [hlist, texts?_list]

theorem readsBack : Json.ReadsBack (fun r => r.doc.fields) toJson ofJson? lacking := by
  refine Json.readsBack_of_found ["suggestions"] (by decide) (fun _ => rfl) (fun _ => rfl)
    (fun _ => rfl) (fun _ => rfl) (fun r omitted v h => ofValue?_of_found h) ?_
  intro v h
  rw [ofValue?, h]

end Response

end Suggest

open Suggest (Request Response)

/-- Settings, requests and responses are read back from what they are written as and from all other
spellings of it, whatever the order of the fields and whatever members of other names are among
them, if these names are texts; then what is left out has its default, or there is no request. With
a name that is half of a surrogate pair nothing is read. -/
theorem records_read_back :
    Json.ReadsBack (fun s : Settings => s.doc.fields) Settings.toJson Settings.ofJson?
      Settings.lacking ∧
    Json.ReadsBack (fun r : Request => r.doc.fields) Request.toJson Request.ofJson?
      Request.lacking ∧
    Json.ReadsBack (fun r : Response => r.doc.fields) Response.toJson Response.ofJson?
      Response.lacking :=
  ⟨Settings.readsBack, Request.readsBack, Response.readsBack⟩

/-- Not every member with the name of no field is skipped. -/
theorem not_every_member_skipped :
    ¬ ∀ (r : Response) (others members : List (Option String × Json.Value)) (text : String),
      Json.Mixes r.doc.fields [] others members →
      Json.Padded (Json.Value.object members).Spells text.toList →
      Response.ofJson? text = some r := by
  intro h
  have hmixes : Json.Mixes (Response.mk ["k"]).doc.fields [] [(none, .null)]
      [(none, .null), (some "suggestions", .array (Suggest.textsOf ["k"]))] :=
    ⟨List.Perm.swap _ _ _, by simp⟩
  have hread := h _ _ _ _ hmixes Suggest.spells_nameless
  rw [(Response.readsBack.spelled _ _ _ _ _ hmixes Suggest.spells_nameless).2 (by simp)] at hread
  cases hread

end TreeShell
