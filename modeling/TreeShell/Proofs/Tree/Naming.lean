import TreeShell.Proofs.Path.Canonical
import TreeShell.Proofs.Tree.Shape

/-! # Naming the entries of a tree

The path of a directory and the name of an entry make up a path at which that entry is found. To
resolve this path leaves it as it is unless one of the names on it is `.` or `..`: a tree may have
entries called so, but in a path they are steps and name nothing. -/

namespace TreeShell

namespace Node

theorem mem_names_of_child? {node child : Node} {name : String}
    (h : node.child? name = some child) : name ∈ node.names ∧ ∀ n ∈ child.names, n ∈ node.names := by
  cases node with
  | file content => cases h
  | directory children =>
    have hmem := Entries.mem_of_get? h
    exact ⟨mem_namesIn.2 ⟨_, hmem, Or.inl rfl⟩, fun n hn => mem_namesIn.2 ⟨_, hmem, Or.inr hn⟩⟩

theorem mem_names_of_descend? {node below : Node} {names : List String}
    (h : node.descend? names = some below) :
    (∀ name ∈ names, name ∈ node.names) ∧ ∀ n ∈ below.names, n ∈ node.names := by
  induction names generalizing node with
  | nil =>
    obtain rfl := Option.some.inj h
    exact ⟨fun name hname => absurd hname List.not_mem_nil, fun n hn => hn⟩
  | cons name names ih =>
    obtain ⟨child, hchild, hbelow⟩ := Option.bind_eq_some_iff.1 h
    obtain ⟨hname, hin⟩ := mem_names_of_child? hchild
    obtain ⟨hnames, hrest⟩ := ih hbelow
    exact ⟨List.forall_mem_cons.2 ⟨hname, fun n hn => hin n (hnames n hn)⟩,
      fun n hn => hin n (hrest n hn)⟩

end Node

namespace FileSystem

/-- A path resolves to itself when it is the text of plain names that lead to a node. -/
theorem resolve_render_eq_iff {fs : FileSystem} {location : List String} {node : Node}
    (hne : location ≠ []) (h : ∀ name ∈ location, Path.IsComponent name)
    (hnode : fs.root.descend? location = some node) (cwd : String) :
    fs.resolve cwd (Path.render location) = .ok (Path.render location) ↔
      ∀ name ∈ location, Path.IsPlain name := by
  rw [resolve_eq_ok_iff, eq_comm, Path.normalize_render_eq_self_iff h]
  constructor
  · exact fun hresolve => hresolve.1
  · intro hplain
    have hslash : Path.endsInSlash (Path.render location) = false := by
      rw [Path.endsInSlash_render h, List.isEmpty_eq_false_iff]
      exact hne
    exact ⟨hplain, node, by rw [lookup_render fs h, hnode], by rw [hslash, Bool.and_false]⟩

/-- In a tree that has been built every entry is found at the path of its directory joined with its
name, and this path resolves to itself from everywhere exactly if no name on it is one of `.` and
`..`. -/
theorem resolve_join_eq_iff (edits : List Edit) (names : List String) (name : String)
    {directory entry : Node} (hdirectory : (empty.edited edits).root.descend? names = some directory)
    (hentry : directory.child? name = some entry) :
    let fs := empty.edited edits
    let path := Path.join (Path.render names) name
    fs.lookup path = some entry ∧
      ∀ cwd, fs.resolve cwd path = .ok path ↔ ∀ n ∈ names ++ [name], n ≠ "." ∧ n ≠ ".." := by
  intro fs path
  have hnode : fs.root.descend? (names ++ [name]) = some entry := by
    rw [Node.descend?_append, hdirectory]
    simp [Node.descend?, hentry]
  have hnames : ∀ n ∈ names ++ [name], Path.IsComponent n := fun n hn =>
    isComponent_of_mem_edited edits n ((Node.mem_names_of_descend? hnode).1 n hn)
  have hpath : path = Path.render (names ++ [name]) :=
    Path.join_render (fun n hn => hnames n (List.mem_append_left _ hn)) name
  refine ⟨by rw [hpath, lookup_render fs hnames, hnode], fun cwd => ?_⟩
  rw [hpath, resolve_render_eq_iff (by simp) hnames hnode]
  exact forall₂_congr fun n hn => and_iff_right (hnames n hn)

/-- Three dots are a name like any other, two are not, also as the name of a directory. -/
theorem resolve_join_eq_dots :
    let edits := [Edit.insertFile "//.../b c" "x", .insertFile "/a/../d/" "y"]
    let fs := empty.edited edits
    (fs.root.descend? ["..."] = some (.directory [("b c", .file "x")]) ∧
      fs.lookup (Path.join "/..." "b c") = some (.file "x") ∧
      fs.resolve "/a" (Path.join "/..." "b c") = .ok "/.../b c") ∧
    fs.root.descend? ["a", ".."] = some (.directory [("d", .file "y")]) ∧
      fs.lookup (Path.join "/a/.." "d") = some (.file "y") ∧
      fs.resolve "/a" (Path.join "/a/.." "d") ≠ .ok "/a/../d" := by
  intro edits fs
  have hplain := resolve_join_eq_iff edits ["..."] "b c" rfl rfl
  have hdots := resolve_join_eq_iff edits ["a", ".."] "d" rfl rfl
  refine ⟨⟨rfl, hplain.1, (hplain.2 "/a").2 (by decide)⟩, rfl, hdots.1, fun h => ?_⟩
  exact absurd ((hdots.2 "/a").1 h) (by decide)

/-- An entry called `..` stands in the tree, but its path means the directory above. -/
theorem not_every_entry_named :
    ¬ ∀ (edits : List Edit) (names : List String) (name : String) (directory entry : Node)
      (cwd : String), (empty.edited edits).root.descend? names = some directory →
        directory.child? name = some entry →
          let path := Path.join (Path.render names) name
          (empty.edited edits).resolve cwd path = .ok path ∧
            (empty.edited edits).lookup path = some entry := by
  intro hnamed
  have hself : (empty.edited [.insertFile "/.." "x"]).resolve "/" "/.." = .ok "/.." :=
    (hnamed [.insertFile "/.." "x"] [] ".." _ _ "/" rfl rfl).1
  have habove : (empty.edited [.insertFile "/.." "x"]).resolve "/" "/.." = .ok "/" := rfl
  rw [habove] at hself
  exact absurd (Except.ok.inj hself) (by decide)

end FileSystem

end TreeShell
