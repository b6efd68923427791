import TreeShell.Proofs.Json.Writing
import TreeShell.Proofs.Tree.Shape

/-! # Trees written and read back

The text of a tree opens two brackets for every directory and one for a file, whatever the
directory holds. So a tree is read back as it was as long as at most 63 directories lie inside
each other, the root being one of them. -/

namespace TreeShell

open Json (Value Doc membersOf)

namespace Node

mutual

/-- How many directories lie inside each other at most. -/
def levels : Node → Nat
  | .file _ => 0
  | .directory children => levelsIn children + 1

def levelsIn : List (String × Node) → Nat
  | [] => 0
  | (_, child) :: rest => max child.levels (levelsIn rest)

end

theorem levelsIn_le_iff {children : List (String × Node)} {n : Nat} :
    levelsIn children ≤ n ↔ ∀ e ∈ children, e.2.levels ≤ n := by
  induction children with
  | nil => simp [levelsIn]
  | cons e rest ih => simp only [levelsIn, Nat.max_le, ih, List.forall_mem_cons]

/-- Since no two entries share a name, each of them can be reached by its name. -/
theorem levels_le_iff {node : Node} (h : node.Distinct) {n : Nat} :
    node.levels ≤ n ↔ ∀ names below, node.descend? names = some below →
      below.isDirectory = true → names.length < n := by
  induction n generalizing node with
  | zero =>
    cases node with
    | file content =>
      refine ⟨fun _ names below hbelow hdir => ?_, fun _ => Nat.le_refl 0⟩
      cases names with
      | nil =>
        obtain rfl := Option.some.inj hbelow
        cases hdir
      | cons name names => cases hbelow
    | directory children =>
      refine ⟨fun hlevels => absurd hlevels (by simp [levels]), fun hnone => ?_⟩
      exact absurd (hnone [] _ rfl rfl) (Nat.not_lt_zero 0)
  | succ n ih =>
    cases node with
    | file content =>
      refine ⟨fun _ names below hbelow hdir => ?_, fun _ => Nat.zero_le _⟩
      cases names with
      | nil => exact Nat.succ_pos n
      | cons name names => cases hbelow
    | directory children =>
      obtain ⟨hnodup, hin⟩ := h
      rw [distinctIn_iff] at hin
      rw [levels, Nat.succ_le_succ_iff, levelsIn_le_iff]
      constructor
      · intro hlevels names below hbelow hdir
        cases names with
        | nil => exact Nat.succ_pos n
        | cons name names =>
          obtain ⟨child, hchild, hbelow⟩ := Option.bind_eq_some_iff.1 hbelow
          have hmem := Entries.mem_of_get? hchild
          exact Nat.succ_lt_succ ((ih (hin _ hmem)).1 (hlevels _ hmem) names below hbelow hdir)
      · intro hshort e he
        refine (ih (hin e he)).2 fun names below hbelow hdir => ?_
        have hchild : Entries.get? e.1 children = some e.2 := Entries.get?_of_mem hnodup he
        refine Nat.lt_of_succ_lt_succ (hshort (e.1 :: names) below ?_ hdir)
        simp [descend?, child?, hchild, hbelow]

/-! ## The value that a tree is written as -/

theorem value_file (content : String) : (file content).doc.value =
    .object [(some "type", .string (some "file")), (some "content", .string (some content))] :=
  rfl

theorem value_directory (children : List (String × Node)) : (directory children).doc.value =
    .object [(some "type", .string (some "directory")),
      (some "children", .object (membersOf (docs children)))] :=
  rfl

mutual

theorem depth_doc : ∀ node : Node, node.doc.value.depth / 2 = node.levels
  | .file content => by
    simp [value_file, Value.depth, Json.depthOfMembers, levels]
  | .directory children => by
    have h := depth_docs children
    simp only [value_directory, Value.depth, Json.depthOfMembers, levels]
    omega

theorem depth_docs : ∀ children : List (String × Node),
    Json.depthOfMembers (membersOf (docs children)) / 2 = levelsIn children
  | [] => rfl
  | (name, child) :: rest => by
    have hchild := depth_doc child
    have hrest := depth_docs rest
    simp only [docs, membersOf, Json.depthOfMembers, levelsIn]
    omega

end

mutual

theorem isExact_doc : ∀ node : Node, node.doc.value.isExact = true
  | .file content => rfl
  | .directory children => by
    simp [value_directory, Value.isExact, Json.exactMembers, isExact_docs children]

theorem isExact_docs : ∀ children : List (String × Node),
    Json.exactMembers (membersOf (docs children)) = true
  | [] => rfl
  | (name, child) :: rest => by
    simp [docs, membersOf, Json.exactMembers, isExact_doc child, isExact_docs rest]

end

theorem namesKind_doc (node : Node) : namesKind node.doc.value = true := by
  cases node with
  | file content => simp [value_file, namesKind, only?, Value.text?]
  | directory children => simp [value_directory, namesKind, only?, Value.text?]

mutual

theorem writtenAs_doc : ∀ node : Node, node.WrittenAs node.doc.value
  | .file _ => .object rfl rfl
  | .directory children => ⟨membersOf (docs children), .object rfl rfl,
    entriesWrittenAs_docs children⟩

theorem entriesWrittenAs_docs : ∀ children : List (String × Node),
    EntriesWrittenAs children (membersOf (docs children))
  | [] => rfl
  | (_, child) :: rest => ⟨child.doc.value, _, rfl, writtenAs_doc child, entriesWrittenAs_docs rest⟩

end

/-- A text of the value of a node is read as that node, its entries settled, unless it nests too
deeply. -/
theorem read?_of_parse {node : Node} {text : String}
    (hparse : Json.parse text = some node.doc.value) :
    read? text = if node.levels ≤ 63 then some node.settled else none := by
  have hdepth : node.doc.value.depth ≤ maxDepth ↔ node.levels ≤ 63 := by
    rw [← depth_doc node, maxDepth]
    omega
  simp [read?, hparse, hdepth, isExact_doc, namesKind_doc,
    ofValue?_of_writtenAs node (writtenAs_doc node)]

end Node

namespace FileSystem

/-- No directory lies more than `n` names below the root. -/
def DirectoriesWithin (n : Nat) (fs : FileSystem) : Prop :=
  ∀ names node, fs.root.descend? names = some node → node.isDirectory = true → names.length ≤ n

theorem directoriesWithin_iff {fs : FileSystem} (h : fs.root.Distinct) {n : Nat} :
    fs.DirectoriesWithin n ↔ fs.root.levels ≤ n + 1 := by
  simp only [Node.levels_le_iff h, Nat.lt_succ_iff, DirectoriesWithin]

theorem ofNode_root {fs : FileSystem} (hdir : fs.root.isDirectory = true)
    (hnames : ∀ name ∈ fs.root.names, Path.IsComponent name) : ofNode fs.root = .ok fs := by
  simp [ofNode, Node.isFile_of_isDirectory hdir, Node.badName?_eq_none_iff.2 hnames]

/-- A tree that has been built is read back from its text as it was if no directory lies more
than 62 names below the root, and otherwise the text is not read at all. -/
theorem ofJson_toJson (edits : List Edit) (hedits : ∀ edit ∈ edits, edit.Distinct) :
    let fs := empty.edited edits
    (ofJson fs.toJson = .ok fs ↔ fs.DirectoriesWithin 62) ∧
      (¬ fs.DirectoriesWithin 62 → ofJson fs.toJson = .error .unreadable) := by
  intro fs
  have hdistinct : fs.root.Distinct := distinct_edited hedits
  have hroot : ofNode fs.root = .ok fs :=
    ofNode_root (isDirectory_edited edits) (isComponent_of_mem_edited edits)
  have hread := Node.read?_of_parse (Json.parse_pretty fs.root.doc)
  rw [Node.settled_of_distinct hdistinct] at hread
  rw [directoriesWithin_iff hdistinct]
  by_cases hlevels : fs.root.levels ≤ 63
  · rw [if_pos hlevels] at hread
    simp [ofJson, toJson, hread, hroot, hlevels]
  · rw [if_neg hlevels] at hread
    simp [ofJson, toJson, hread, hlevels]

/-- Names and contents with marks, escapes and a character beyond the sixteen bits are read back;
a directory 63 names below the root is too deep. -/
theorem ofJson_toJson_escaped_and_deep :
    let escaped := [Edit.insert "/a" (.directory [("..", .directory []), ("\"\\", .file "\n\x01")]),
      .insertFile "/a/😀" "", .insertFile "/a/😀/b" ""]
    let deep := [Edit.insertDirectory (Path.render (List.replicate 63 "d"))]
    ((∀ edit ∈ escaped, edit.Distinct) ∧
      ofJson (empty.edited escaped).toJson = .ok (empty.edited escaped)) ∧
      (∀ edit ∈ deep, edit.Distinct) ∧
        ofJson (empty.edited deep).toJson = .error .unreadable := by
  intro escaped deep
  have hescaped : ∀ edit ∈ escaped, edit.Distinct := by
    simp [escaped, Edit.Distinct, Node.Distinct, Node.DistinctIn, Entries.names]
  have hdeep : ∀ edit ∈ deep, edit.Distinct := by simp [deep, Edit.Distinct]
  refine ⟨⟨hescaped, (ofJson_toJson escaped hescaped).1.2 ?_⟩, hdeep,
    (ofJson_toJson deep hdeep).2 ?_⟩
  · rw [directoriesWithin_iff (distinct_edited hescaped)]
    decide +kernel
  · intro hwithin
    have hlowest : (empty.edited deep).root.descend? (List.replicate 63 "d") =
        some (.directory []) := by decide +kernel
    exact absurd (hwithin _ _ hlowest rfl) (by decide)

end FileSystem

end TreeShell
