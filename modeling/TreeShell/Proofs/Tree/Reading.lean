import TreeShell.Proofs.Tree.Entries
import TreeShell.Tree.Edit

/-! # What is read as a tree

A value is written for a file with its content, or for a directory whose entries stand in an object,
in the order of the text and with all repetitions of their names. What is read from it is the node
that is written once only the last of the entries with one name is left, where the first stood. -/

namespace TreeShell

open Json (Value)

/-- Induction on a value by way of the values in it. -/
theorem Json.Value.nested_induction {P : Value → Prop} (hnull : P .null) (hbool : ∀ b, P (.bool b))
    (hnumber : ∀ n, P (.number n)) (hstring : ∀ text, P (.string text))
    (harray : ∀ items, (∀ v ∈ items, P v) → P (.array items))
    (hobject : ∀ members, (∀ m ∈ members, P m.2) → P (.object members)) (v : Value) : P v :=
  @Value.rec P (fun items => ∀ v ∈ items, P v) (fun members => ∀ m ∈ members, P m.2) (fun m => P m.2)
    hnull hbool hnumber hstring harray hobject
    (fun _ hv => absurd hv List.not_mem_nil)
    (fun _ _ hhead htail => List.forall_mem_cons.2 ⟨hhead, htail⟩)
    (fun _ hm => absurd hm List.not_mem_nil)
    (fun _ _ hhead htail => List.forall_mem_cons.2 ⟨hhead, htail⟩)
    (fun _ _ hv => hv) v

namespace Node

/-! ## Files and directories -/

/-- The value says a file with this content. -/
inductive IsFileValue (content : String) : Value → Prop
  | object {members : List (Option String × Value)}
      (hkind : (only? "type" members).bind kind? = some .file)
      (hcontent : (only? "content" members).bind Value.text? = some content) :
      IsFileValue content (.object members)
  | array {tag : Value} (hkind : kind? tag = some .file) :
      IsFileValue content (.array [tag, .string (some content)])

/-- The value says a directory whose entries are these members, in the order of the text. -/
inductive IsDirectoryValue : (entries : List (Option String × Value)) → Value → Prop
  | object {members entries : List (Option String × Value)}
      (hkind : (only? "type" members).bind kind? = some .directory)
      (hentries : only? "children" members = some (.object entries)) :
      IsDirectoryValue entries (.object members)
  | childless {members : List (Option String × Value)}
      (hkind : (only? "type" members).bind kind? = some .directory)
      (hnone : ¬ ∃ m ∈ members, m.1 = some "children") : IsDirectoryValue [] (.object members)
  | array {tag : Value} {entries : List (Option String × Value)}
      (hkind : kind? tag = some .directory) : IsDirectoryValue entries (.array [tag, .object entries])
  | tagOnly {tag : Value} (hkind : kind? tag = some .directory) : IsDirectoryValue [] (.array [tag])

theorem only?_cons_self (name : String) (v : Value) (rest : List (Option String × Value)) :
    only? name ((some name, v) :: rest) =
      if ∃ m ∈ rest, m.1 = some name then none else some v := by
  have hself : ((some name, v).1 == some name) = true := beq_self_eq_true _
  rw [only?, List.filter_cons, if_pos hself]
  cases hrest : rest.filter (·.1 == some name) with
  | nil =>
    have hnone : ¬ ∃ m ∈ rest, m.1 = some name := by
      rintro ⟨m, hm, hname⟩
      exact List.filter_eq_nil_iff.1 hrest m hm (beq_iff_eq.2 hname)
    rw [if_neg hnone]
  | cons m others =>
    have hm : m ∈ rest.filter (·.1 == some name) := hrest ▸ List.mem_cons_self
    obtain ⟨hmem, hname⟩ := List.mem_filter.1 hm
    rw [if_pos ⟨m, hmem, beq_iff_eq.1 hname⟩]

theorem only?_cons_of_ne {name : String} {m : Option String × Value} (h : m.1 ≠ some name)
    (rest : List (Option String × Value)) : only? name (m :: rest) = only? name rest := by
  have hne : (m.1 == some name) = false := beq_eq_false_iff_ne.2 h
  rw [only?, only?, List.filter_cons_of_neg (by simp [hne])]

theorem mem_of_only? {name : String} {members : List (Option String × Value)} {v : Value}
    (h : only? name members = some v) : (some name, v) ∈ members := by
  induction members with
  | nil => cases h
  | cons m rest ih =>
    obtain ⟨n, w⟩ := m
    by_cases hname : n = some name
    · subst hname
      rw [only?_cons_self] at h
      split at h
      · cases h
      · obtain rfl := Option.some.inj h
        exact List.mem_cons_self
    · rw [only?_cons_of_ne hname] at h
      exact List.mem_cons_of_mem _ (ih h)

theorem childrenIn?_cons (name : Option String) (v : Value) (rest : List (Option String × Value)) :
    childrenIn? ((name, v) :: rest) =
      if name = some "children" then
        if rest.any (·.1 == some "children") then none
        else match v with
          | .object entries => entries? entries
          | _ => none
      else childrenIn? rest := by
  cases v <;> rfl

/-- The entries stand in the object of the only member `children`; without one there are none. -/
theorem childrenIn?_eq (members : List (Option String × Value)) :
    childrenIn? members =
      if ∃ m ∈ members, m.1 = some "children" then
        match only? "children" members with
        | some (.object entries) => entries? entries
        | _ => none
      else some [] := by
  induction members with
  | nil => rfl
  | cons m rest ih =>
    obtain ⟨name, v⟩ := m
    rw [childrenIn?_cons]
    by_cases hname : name = some "children"
    · subst hname
      have hself : ∃ m ∈ (some "children", v) :: rest, m.1 = some "children" :=
        ⟨_, List.mem_cons_self, rfl⟩
      rw [if_pos rfl, if_pos hself, only?_cons_self]
      simp only [List.any_eq_true, beq_iff_eq]
      by_cases hrest : ∃ m ∈ rest, m.1 = some "children"
      · rw [if_pos hrest, if_pos hrest]
      · rw [if_neg hrest, if_neg hrest]
        cases v <;> rfl
    · rw [if_neg hname, only?_cons_of_ne hname, ih]
      simp only [List.mem_cons, exists_eq_or_imp, hname, false_or]

theorem ofValue?_of_isFileValue {content : String} {v : Value} (h : IsFileValue content v) :
    ofValue? v = some (.file content) := by
  cases h with
  | object hkind hcontent => simp [ofValue?, hkind, hcontent]
  | array hkind => simp [ofValue?, hkind]

theorem ofValue?_of_isDirectoryValue {entries : List (Option String × Value)} {v : Value}
    (h : IsDirectoryValue entries v) :
    ofValue? v = (entries? entries).map (.directory <| Entries.ofList ·) := by
  cases h with
  | @object members entries hkind hentries =>
    have hsome : ∃ m ∈ members, m.1 = some "children" := ⟨_, mem_of_only? hentries, rfl⟩
    simp only [ofValue?, hkind, childrenIn?_eq, if_pos hsome, hentries]
  | childless hkind hnone => simp only [ofValue?, hkind, childrenIn?_eq, if_neg hnone, entries?]
  | array hkind => simp [ofValue?, hkind]
  | tagOnly hkind => simp [ofValue?, hkind, entries?, Entries.ofList]

/-- A value that is read says a file or a directory whose entries are read. -/
theorem ofValue?_cases {v : Value} {node : Node} (h : ofValue? v = some node) :
    (∃ content, IsFileValue content v ∧ node = .file content) ∨
      ∃ entries nodes, IsDirectoryValue entries v ∧ entries? entries = some nodes ∧
        node = .directory (Entries.ofList nodes) := by
  unfold ofValue? at h
  split at h
  · rename_i members
    split at h
    · rename_i hkind
      obtain ⟨content, hcontent, rfl⟩ := Option.map_eq_some_iff.1 h
      exact Or.inl ⟨content, .object hkind hcontent, rfl⟩
    · rename_i hkind
      obtain ⟨nodes, hnodes, rfl⟩ := Option.map_eq_some_iff.1 h
      rw [childrenIn?_eq] at hnodes
      split at hnodes
      · split at hnodes
        · rename_i entries hentries
          exact Or.inr ⟨entries, nodes, .object hkind hentries, hnodes, rfl⟩
        · cases hnodes
      · rename_i hnone
        obtain rfl := Option.some.inj hnodes
        exact Or.inr ⟨[], [], .childless hkind hnone, rfl, rfl⟩
    · cases h
  · split at h
    · rename_i hkind
      exact Or.inr ⟨[], [], .tagOnly hkind, rfl, (Option.some.inj h).symm⟩
    · cases h
  · split at h
    · rename_i hkind
      exact Or.inl ⟨_, .array hkind, (Option.some.inj h).symm⟩
    · cases h
  · split at h
    · rename_i hkind
      obtain ⟨nodes, hnodes, rfl⟩ := Option.map_eq_some_iff.1 h
      exact Or.inr ⟨_, nodes, .array hkind, hnodes, rfl⟩
    · cases h
  · cases h

theorem entries?_cons {m : Option String × Value} {rest : List (Option String × Value)}
    {nodes : List (String × Node)} (h : entries? (m :: rest) = some nodes) :
    ∃ name node others, nodes = (name, node) :: others ∧ m.1 = some name ∧
      ofValue? m.2 = some node ∧ entries? rest = some others := by
  obtain ⟨name, v⟩ := m
  unfold entries? at h
  split at h
  · rename_i name node others hnode hothers
    exact ⟨name, node, others, (Option.some.inj h).symm, rfl, hnode, hothers⟩
  · cases h

/-! ## Nodes as they are written -/

mutual

/-- The value says the node as it stands there, every directory with all of its entries in order. -/
def WrittenAs : Node → Value → Prop
  | .file content, v => IsFileValue content v
  | .directory children, v =>
    ∃ entries, IsDirectoryValue entries v ∧ EntriesWrittenAs children entries

def EntriesWrittenAs : List (String × Node) → List (Option String × Value) → Prop
  | [], members => members = []
  | (name, child) :: rest, members =>
    ∃ v others, members = (some name, v) :: others ∧ child.WrittenAs v ∧ EntriesWrittenAs rest others

end

mutual

/-- Of the entries of a directory with one name the last is left, where the first stood. -/
def settled : Node → Node
  | .file content => .file content
  | .directory children => .directory (Entries.ofList (settledIn children))

def settledIn : List (String × Node) → List (String × Node)
  | [] => []
  | (name, child) :: rest => (name, child.settled) :: settledIn rest

end

mutual

theorem ofValue?_of_writtenAs : ∀ (written : Node) {v : Value}, written.WrittenAs v →
    ofValue? v = some written.settled
  | .file _, _, h => ofValue?_of_isFileValue h
  | .directory children, _, ⟨entries, hdirectory, hentries⟩ => by
    rw [ofValue?_of_isDirectoryValue hdirectory, entries?_of_entriesWrittenAs children hentries,
      Option.map_some, settled]

theorem entries?_of_entriesWrittenAs : ∀ (children : List (String × Node))
    {members : List (Option String × Value)}, EntriesWrittenAs children members →
      entries? members = some (settledIn children)
  | [], _, h => by
    obtain rfl := h
    rfl
  | (name, child) :: rest, _, ⟨v, others, hmembers, hchild, hrest⟩ => by
    simp only [hmembers, entries?, ofValue?_of_writtenAs child hchild,
      entries?_of_entriesWrittenAs rest hrest, settledIn]

end

theorem exists_entriesWrittenAs {members : List (Option String × Value)}
    (hvalues : ∀ m ∈ members, ∀ node, ofValue? m.2 = some node →
      ∃ written : Node, written.WrittenAs m.2 ∧ written.settled = node)
    {nodes : List (String × Node)} (h : entries? members = some nodes) :
    ∃ children, EntriesWrittenAs children members ∧ settledIn children = nodes := by
  induction members generalizing nodes with
  | nil => exact ⟨[], rfl, Option.some.inj h⟩
  | cons m rest ih =>
    obtain ⟨name, node, others, rfl, hname, hnode, hothers⟩ := entries?_cons h
    rw [List.forall_mem_cons] at hvalues
    obtain ⟨written, hwritten, rfl⟩ := hvalues.1 node hnode
    obtain ⟨children, hchildren, rfl⟩ := ih hvalues.2 hothers
    exact ⟨(name, written) :: children, ⟨m.2, rest, by rw [← hname], hwritten, hchildren⟩, rfl⟩

/-- If the entries of a directory are those of a written one, so is the directory. -/
theorem exists_writtenAs {v : Value}
    (hbelow : ∀ members nodes, IsDirectoryValue members v → entries? members = some nodes →
      ∃ children, EntriesWrittenAs children members ∧ settledIn children = nodes)
    {node : Node} (h : ofValue? v = some node) :
    ∃ written : Node, written.WrittenAs v ∧ written.settled = node := by
  rcases ofValue?_cases h with ⟨content, hfile, rfl⟩ | ⟨members, nodes, hdirectory, hnodes, rfl⟩
  · exact ⟨.file content, hfile, rfl⟩
  · obtain ⟨children, hchildren, rfl⟩ := hbelow members nodes hdirectory hnodes
    exact ⟨.directory children, ⟨members, hdirectory, hchildren⟩, rfl⟩

/-- The entries of an object lie one object deeper than what is read from them, so both are shown
at once. -/
theorem exists_written_and_entries (v : Value) :
    (∀ node, ofValue? v = some node →
      ∃ written : Node, written.WrittenAs v ∧ written.settled = node) ∧
    ∀ members nodes, v = .object members → entries? members = some nodes →
      ∃ children, EntriesWrittenAs children members ∧ settledIn children = nodes := by
  have hnil : ∀ nodes, entries? [] = some nodes →
      ∃ children, EntriesWrittenAs children [] ∧ settledIn children = nodes :=
    fun nodes hnodes => ⟨[], rfl, Option.some.inj hnodes⟩
  induction v using Value.nested_induction with
  | hnull | hbool | hnumber | hstring =>
    refine ⟨fun node => exists_writtenAs ?_, by rintro members nodes ⟨⟩⟩
    rintro members nodes ⟨⟩
  | harray items ih =>
    refine ⟨fun node => exists_writtenAs ?_, by rintro members nodes ⟨⟩⟩
    intro members nodes hdirectory hnodes
    cases hdirectory with
    | array hkind => exact (ih (.object members) (by simp)).2 members nodes rfl hnodes
    | tagOnly hkind => exact hnil nodes hnodes
  | hobject members ih =>
    refine ⟨fun node => exists_writtenAs ?_, ?_⟩
    · intro entries nodes hdirectory hnodes
      cases hdirectory with
      | object hkind hentries => exact (ih _ (mem_of_only? hentries)).2 entries nodes rfl hnodes
      | childless hkind hnone => exact hnil nodes hnodes
    · rintro _ nodes ⟨⟩ hnodes
      exact exists_entriesWrittenAs (fun m hm => (ih m hm).1) hnodes

/-- What is read from a value is what it says, its entries settled. -/
theorem ofValue?_eq_some_iff {v : Value} {node : Node} : ofValue? v = some node ↔
    ∃ written : Node, written.WrittenAs v ∧ written.settled = node := by
  constructor
  · exact (exists_written_and_entries v).1 node
  · rintro ⟨written, hwritten, rfl⟩
    exact ofValue?_of_writtenAs written hwritten

theorem read?_eq_some {text : String} {node : Node} (h : read? text = some node) :
    ∃ v, Json.parse text = some v ∧ ofValue? v = some node := by
  unfold read? at h
  split at h
  · cases h
  · rename_i v hparse
    split at h
    · exact ⟨v, hparse, h⟩
    · cases h

end Node

namespace FileSystem

theorem ofJson_eq_ok {text : String} {fs : FileSystem} (h : ofJson text = .ok fs) :
    Node.read? text = some fs.root ∧ fs.root.isDirectory = true ∧ fs.root.badName? = none := by
  unfold ofJson at h
  split at h
  · cases h
  · rename_i root hread
    unfold ofNode at h
    split at h
    · cases h
    · rename_i hfile
      split at h
      · cases h
      · rename_i hbad
        obtain rfl := Except.ok.inj h
        cases root with
        | file content => exact absurd rfl hfile
        | directory children => exact ⟨hread, rfl, hbad⟩

end FileSystem

end TreeShell
