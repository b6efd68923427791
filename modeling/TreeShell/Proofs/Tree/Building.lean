import TreeShell.Proofs.Tree.RoundTrip

/-! # Trees built entry by entry

The entries that a text writes for a tree can also be put in place one after the other: each
directory first, empty, and then all that is written in it. A later entry of a name that is there
takes the place of the earlier one with all that had been built below it, so what stands there in
the end is what is read from the text. -/

namespace TreeShell

namespace Node

/-- A file or an empty directory: what an entry puts in place before the entries below it. -/
def bare : Node → Node
  | .file content => .file content
  | .directory _ => .directory []

theorem badName?_bare (node : Node) : node.bare.badName? = none := by
  cases node <;> rfl

/-- An entry seen from the directory above the one that it was seen from. -/
def above (name : String) (entry : List String × Node) : List String × Node :=
  (name :: entry.1, entry.2)

mutual

/-- All that is written below a node, each entry with the names that lead to it, in the order of
the text: first the entry, then what is below it, then the entries after it. -/
def outline : Node → List (List String × Node)
  | .file _ => []
  | .directory children => outlineIn children

def outlineIn : List (String × Node) → List (List String × Node)
  | [] => []
  | (name, child) :: rest => ([name], child) :: (child.outline.map (above name) ++ outlineIn rest)

end

mutual

theorem names_of_mem_outline : ∀ (node : Node) {entry : List String × Node},
    entry ∈ node.outline → entry.1 ≠ [] ∧ ∀ name ∈ entry.1, name ∈ node.names
  | .file _, _, h => absurd h List.not_mem_nil
  | .directory children, _, h => names_of_mem_outlineIn children h

theorem names_of_mem_outlineIn : ∀ (children : List (String × Node)) {entry : List String × Node},
    entry ∈ outlineIn children → entry.1 ≠ [] ∧ ∀ name ∈ entry.1, name ∈ namesIn children
  | [], _, h => absurd h List.not_mem_nil
  | (name, child) :: rest, entry, h => by
    rw [outlineIn, List.mem_cons, List.mem_append, List.mem_map] at h
    rw [namesIn]
    rcases h with rfl | ⟨lower, hlower, rfl⟩ | hrest
    · exact ⟨List.cons_ne_nil _ _, by simp⟩
    · have hnames := (names_of_mem_outline child hlower).2
      refine ⟨List.cons_ne_nil _ _, fun n hn => ?_⟩
      rcases List.mem_cons.1 hn with rfl | hn
      · exact List.mem_cons_self
      · exact List.mem_cons_of_mem _ (List.mem_append_left _ (hnames n hn))
    · have hnames := names_of_mem_outlineIn rest hrest
      exact ⟨hnames.1, fun n hn =>
        List.mem_cons_of_mem _ (List.mem_append_right _ (hnames.2 n hn))⟩

end

/-- One after the other the entries find their places. -/
inductive Builds : (node : Node) → (entries : List (List String × Node)) → (last : Node) → Prop
  | nil {node : Node} : Builds node [] node
  | cons {node next last : Node} {entry : List String × Node}
      {entries : List (List String × Node)}
      (hplace : place entry.2.bare entry.1 node = (.placed, next))
      (hrest : Builds next entries last) : Builds node (entry :: entries) last

theorem Builds.append {node next last : Node} {first second : List (List String × Node)}
    (h : Builds node first next) (h' : Builds next second last) :
    Builds node (first ++ second) last := by
  induction h with
  | nil => exact h'
  | cons hplace _ ih => exact .cons hplace (ih h')

/-- What is built in a child is built below its directory, which gives it its new child. -/
theorem Builds.in_directory {name : String} {child last : Node} {entries : List (List String × Node)}
    (h : Builds child entries last) {children : List (String × Node)}
    (hchild : Entries.get? name children = some child) :
    Builds (.directory children) (entries.map (above name))
      (.directory (Entries.put name last children)) := by
  induction h generalizing children with
  | nil =>
    rw [Entries.put_of_get? hchild]
    exact .nil
  | @cons child next last entry entries hplace _ ih =>
    have hstep : place entry.2.bare (name :: entry.1) (.directory children) =
        (.placed, .directory (Entries.put name next children)) := by
      simp only [place, hchild, Option.getD_some, hplace, Placement.below]
    have hrest := ih (Entries.get?_put_self name next children)
    rw [Entries.put_put] at hrest
    exact .cons hstep hrest

mutual

/-- Out of what a node puts in place for itself its entries build what is left of it when its
entries have settled. -/
theorem builds_outline : ∀ written : Node, Builds written.bare written.outline written.settled
  | .file _ => .nil
  | .directory children => builds_outlineIn children []

theorem builds_outlineIn : ∀ children old : List (String × Node), Builds (.directory old)
    (outlineIn children) (.directory (Entries.writeAll old (settledIn children)))
  | [], _ => .nil
  | (name, child) :: rest, old => by
    -- The child is put there empty, then filled, and all this comes to one write of the filled child.
    have hfilled := (builds_outline child).in_directory (Entries.get?_put_self name child.bare old)
    rw [Entries.put_put] at hfilled
    exact .cons rfl (hfilled.append (builds_outlineIn rest (Entries.put name child.settled old)))

end

/-- The node is written in the text, with every entry of its directories, also those whose names
are repeated. -/
def IsWrittenIn (written : Node) (text : String) : Prop :=
  ∃ v, Json.parse text = some v ∧ written.WrittenAs v

theorem isWrittenIn_toJson (node : Node) : node.IsWrittenIn node.toJson :=
  ⟨node.doc.value, Json.parse_compact node.doc, writtenAs_doc node⟩

theorem exists_isWrittenIn {text : String} {node : Node} (h : read? text = some node) :
    ∃ written : Node, written.IsWrittenIn text := by
  obtain ⟨v, hparse, hv⟩ := read?_eq_some h
  obtain ⟨written, hwritten, -⟩ := ofValue?_eq_some_iff.1 hv
  exact ⟨written, v, hparse, hwritten⟩

theorem IsWrittenIn.settled_eq {written : Node} {text : String} (h : written.IsWrittenIn text)
    {node : Node} (hread : read? text = some node) : written.settled = node := by
  obtain ⟨v, hparse, hwritten⟩ := h
  obtain ⟨w, hparse', hv⟩ := read?_eq_some hread
  obtain rfl := Option.some.inj (hparse.symm.trans hparse')
  exact Option.some.inj ((ofValue?_of_writtenAs written hwritten).symm.trans hv)

end Node

/-! ## Edits that build a tree -/

namespace Edit

/-- Inserts an entry at the path of its names, a directory without its children. -/
def ofEntry : List String × Node → Edit
  | (names, .file content) => .insertFile (Path.render names) content
  | (names, .directory _) => .insertDirectory (Path.render names)

theorem apply_ofEntry (entry : List String × Node) (fs : FileSystem) :
    (ofEntry entry).apply fs = fs.insert (Path.render entry.1) entry.2.bare := by
  obtain ⟨names, node⟩ := entry
  cases node <;> rfl

/-- All the edits succeed, one after the other. -/
inductive Run : (fs : FileSystem) → (edits : List Edit) → (last : FileSystem) → Prop
  | nil {fs : FileSystem} : Run fs [] fs
  | cons {fs next last : FileSystem} {edit : Edit} {edits : List Edit}
      (happly : edit.apply fs = (.ok (), next)) (hrest : Run next edits last) :
      Run fs (edit :: edits) last

end Edit

namespace FileSystem

theorem insert_eq_placed {node root : Node} (hbad : node.badName? = none) {names : List String}
    (hne : names ≠ []) (hnames : ∀ name ∈ names, Path.IsComponent name) {fs : FileSystem}
    (hplace : Node.place node names fs.root = (.placed, root)) :
    fs.insert (Path.render names) node = (.ok (), ⟨root⟩) := by
  have hpath : Path.components (Path.render names) = names := Path.components_render hnames
  rcases insert_below_root hbad (hpath.symm ▸ hne) with ⟨walked, hblocked, -⟩ | ⟨-, hinsert⟩
  · rw [hpath, hplace] at hblocked
    cases hblocked
  · rw [hinsert, hpath, hplace]

theorem run_of_builds {node last : Node} {entries : List (List String × Node)}
    (h : node.Builds entries last)
    (hentries : ∀ entry ∈ entries, entry.1 ≠ [] ∧ ∀ name ∈ entry.1, Path.IsComponent name) :
    Edit.Run ⟨node⟩ (entries.map Edit.ofEntry) ⟨last⟩ := by
  induction h with
  | nil => exact .nil
  | @cons node next last entry entries hplace _ ih =>
    rw [List.forall_mem_cons] at hentries
    obtain ⟨⟨hne, hnames⟩, hrest⟩ := hentries
    refine .cons ?_ (ih hrest)
    rw [Edit.apply_ofEntry]
    exact insert_eq_placed entry.2.badName?_bare hne hnames hplace

/-- A tree that is read from a text is the one that insertions of all the entries in the text build
in an empty tree, in the order of the text, and none of them fails. -/
theorem run_outline_of_ofJson {text : String} {fs : FileSystem} (h : ofJson text = .ok fs) :
    (∃ written : Node, written.IsWrittenIn text) ∧
      ∀ written : Node, written.IsWrittenIn text →
        (∀ name ∈ written.names, Path.IsComponent name) →
          Edit.Run empty (written.outline.map Edit.ofEntry) fs := by
  obtain ⟨hread, hdirectory, -⟩ := ofJson_eq_ok h
  refine ⟨Node.exists_isWrittenIn hread, fun written hwritten hnames => ?_⟩
  have hsettled : written.settled = fs.root := hwritten.settled_eq hread
  have hentries : ∀ entry ∈ written.outline,
      entry.1 ≠ [] ∧ ∀ name ∈ entry.1, Path.IsComponent name := by
    intro entry hentry
    obtain ⟨hne, hmem⟩ := written.names_of_mem_outline hentry
    exact ⟨hne, fun name hname => hnames name (hmem name hname)⟩
  have hbuilds := Node.builds_outline written
  cases written with
  | file content =>
    rw [← hsettled] at hdirectory
    cases hdirectory
  | directory children =>
    rw [hsettled] at hbuilds
    exact run_of_builds hbuilds hentries

/-- Two directories of one name, the later one in the place of the earlier, and in each of them a
name that goes from a file to a directory or back. -/
theorem run_outline_of_ofJson_repeated :
    let written : Node := .directory
      [("a", .directory [("c", .file "1"), ("c", .directory [("d", .file "2")])]), ("b", .file "3"),
        ("a", .directory [("e", .directory [("f", .file "4")]), ("e", .file "5")])]
    let fs : FileSystem := ⟨.directory [("a", .directory [("e", .file "5")]), ("b", .file "3")]⟩
    ofJson written.toJson = .ok fs ∧ written.IsWrittenIn written.toJson ∧
      (∀ name ∈ written.names, Path.IsComponent name) ∧
        Edit.Run empty [.insertDirectory "/a", .insertFile "/a/c" "1", .insertDirectory "/a/c",
          .insertFile "/a/c/d" "2", .insertFile "/b" "3", .insertDirectory "/a",
          .insertDirectory "/a/e", .insertFile "/a/e/f" "4", .insertFile "/a/e" "5"] fs := by
  intro written fs
  have hread : Node.read? written.toJson = some fs.root :=
    Node.read?_of_parse (Json.parse_compact written.doc)
  have hload : ofJson written.toJson = .ok fs := by
    rw [ofJson, hread]
    rfl
  have hwritten : written.IsWrittenIn written.toJson := written.isWrittenIn_toJson
  have hnames : ∀ name ∈ written.names, Path.IsComponent name := Node.badName?_eq_none_iff.1 rfl
  exact ⟨hload, hwritten, hnames, (run_outline_of_ofJson hload).2 written hwritten hnames⟩

end FileSystem

end TreeShell
