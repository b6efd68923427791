import TreeShell.Proofs.Tree.Shape

/-! # Well-formed trees

A tree is well formed when its root is a directory and every directory in it, at any depth, gives
each of its entries a name that a path can hold, and no name twice. Edits keep a tree well formed,
whether they succeed or not, and a text is read as a tree exactly if what it describes is one. -/

/-! ## When an insertion fails

An insertion fails at an invalid name in the new node, at a file that should become the root, or
at a file on the way, and then it leaves the tree as it was. -/

namespace TreeShell.FileSystem

/-- Some of the names that `path` takes, but not all of them, lead to a file. -/
def IsBlocked (fs : FileSystem) (path : String) : Prop :=
  ∃ above below content, above ≠ [] ∧ below ≠ [] ∧ Path.components path = above ++ below ∧
    fs.lookup (Path.render above) = some (.file content)

theorem isBlocked_iff {fs : FileSystem} (hroot : fs.root.isDirectory = true) {path : String}
    (new : Node) : fs.IsBlocked path ↔
      ∃ walked, (Node.place new (Path.components path) fs.root).1 = .blocked walked := by
  simp only [Node.place_eq_blocked_iff]
  have hname {above below : List String} (h : Path.components path = above ++ below) :
      ∀ name ∈ above, Path.IsComponent name := fun name hmem =>
    Path.isComponent_of_mem (h ▸ List.mem_append_left below hmem)
  constructor
  · rintro ⟨above, below, content, -, hbelow, hpath, hfile⟩
    rw [lookup_render fs (hname hpath)] at hfile
    obtain ⟨name, rest, rfl⟩ := List.exists_cons_of_ne_nil hbelow
    exact ⟨above ++ [name], above, name, rest, content, hpath, rfl, hfile⟩
  · rintro ⟨walked, above, name, rest, content, hpath, -, hfile⟩
    refine ⟨above, name :: rest, content, ?_, by simp, hpath, ?_⟩
    · rintro rfl
      rw [Option.some.inj hfile] at hroot
      cases hroot
    · rwa [lookup_render fs (hname hpath)]

/-- The first name in a new node that no path could name. -/
def firstInvalid (node : Node) : Option String :=
  node.names.find? fun name => name == "" || name.toList.contains '/'

theorem badName?_eq_firstInvalid (node : Node) : node.badName? = firstInvalid node := by
  rw [Node.badName?_eq_find?, firstInvalid]
  congr 1
  funext name
  simp only [Node.isName, bne, Bool.not_and, Bool.not_not]

/-- The outcomes of an insertion in the order in which they are looked for. -/
theorem insert_cases {fs : FileSystem} (hroot : fs.root.isDirectory = true) (path : String)
    (node : Node) :
    (∃ name, firstInvalid node = some name ∧
      fs.insert path node = (.error (.invalidName name), fs)) ∨
    firstInvalid node = none ∧
      ((Path.components path = [] ∧ node.isFile = true ∧
          fs.insert path node = (.error .rootNotDirectory, fs)) ∨
        ¬ (Path.components path = [] ∧ node.isFile = true) ∧
          ((fs.IsBlocked path ∧ ∃ p, fs.insert path node = (.error (.notADirectory p), fs)) ∨
            ¬ fs.IsBlocked path ∧ (fs.insert path node).1 = .ok ())) := by
  rw [← badName?_eq_firstInvalid]
  cases hbad : node.badName? with
  | some name => exact Or.inl ⟨name, rfl, insert_of_badName hbad path fs⟩
  | none =>
    refine Or.inr ⟨rfl, ?_⟩
    by_cases hpath : Path.components path = []
    · have hfree : ¬ fs.IsBlocked path := by
        rintro ⟨above, below, content, habove, -, hnames, -⟩
        exact habove (List.append_eq_nil_iff.1 (hnames.symm.trans hpath)).1
      rw [insert_at_root hbad hpath]
      cases node with
      | file content => exact Or.inl ⟨hpath, rfl, rfl⟩
      | directory children => exact Or.inr ⟨by simp [Node.isFile], Or.inr ⟨hfree, rfl⟩⟩
    · refine Or.inr ⟨fun h => hpath h.1, ?_⟩
      rw [isBlocked_iff hroot node]
      rcases insert_below_root hbad hpath with ⟨walked, hwalked, h⟩ | ⟨hplaced, h⟩
      · exact Or.inl ⟨⟨walked, hwalked⟩, _, h⟩
      · refine Or.inr ⟨?_, by rw [h]⟩
        rintro ⟨walked, hwalked⟩
        rw [hplaced] at hwalked
        cases hwalked

/-- An insertion into a tree that has been built says exactly why it fails, and if it fails the
tree is the one before. -/
theorem insert_fails_unchanged (edits : List Edit) (path : String) (node : Node) :
    let fs := empty.edited edits
    let result := (fs.insert path node).1
    let rootFile := Path.components path = [] ∧ node.isFile = true
    (∀ name, result = .error (.invalidName name) ↔ firstInvalid node = some name) ∧
      (result = .error .rootNotDirectory ↔ firstInvalid node = none ∧ rootFile) ∧
      ((∃ p, result = .error (.notADirectory p)) ↔
        firstInvalid node = none ∧ ¬ rootFile ∧ fs.IsBlocked path) ∧
      (result = .ok () ↔ firstInvalid node = none ∧ ¬ rootFile ∧ ¬ fs.IsBlocked path) ∧
      ∀ e, result = .error e → (fs.insert path node).2 = fs := by
  intro fs result rootFile
  rcases insert_cases (isDirectory_edited edits) path node with
    ⟨name, hbad, h⟩ | ⟨hgood, ⟨hpath, hfile, h⟩ | ⟨hroot, ⟨hblocked, p, h⟩ | ⟨hfree, h⟩⟩⟩
  · simp [result, fs, h, hbad]
  · simp [result, fs, h, hgood, rootFile, hpath, hfile]
  · simp [result, fs, h, hgood, rootFile, hroot, hblocked]
  · simp [result, fs, h, hgood, rootFile, hroot, hfree]

end TreeShell.FileSystem

/-! ## What edits keep -/

namespace TreeShell

namespace Node

theorem nested_induction {P : Node → Prop} (hfile : ∀ content, P (.file content))
    (hdirectory : ∀ children, (∀ e ∈ children, P e.2) → P (.directory children)) (node : Node) :
    P node :=
  @Node.rec P (fun children => ∀ e ∈ children, P e.2) (fun e => P e.2) hfile
    (fun _ hchildren => hdirectory _ hchildren)
    (fun _ he => absurd he List.not_mem_nil)
    (fun _ _ hhead htail => List.forall_mem_cons.2 ⟨hhead, htail⟩)
    (fun _ _ hchild => hchild) node

/-- The first node is the second or lies in it, at any depth. -/
inductive LiesIn (below : Node) : Node → Prop
  | itself : LiesIn below below
  | deeper {children : List (String × Node)} {e : String × Node} (hmem : e ∈ children)
      (hchild : LiesIn below e.2) : LiesIn below (.directory children)

theorem liesIn_directory_iff {below : Node} {children : List (String × Node)} :
    below.LiesIn (.directory children) ↔
      below = .directory children ∨ ∃ e ∈ children, below.LiesIn e.2 := by
  constructor
  · intro h
    cases h with
    | itself => exact Or.inl rfl
    | deeper hmem hchild => exact Or.inr ⟨_, hmem, hchild⟩
  · rintro (rfl | ⟨e, hmem, hchild⟩)
    · exact .itself
    · exact .deeper hmem hchild

theorem not_liesIn_file {children : List (String × Node)} {content : String} :
    ¬ (directory children).LiesIn (.file content) := nofun

/-- A property of all directories in a tree holds of the root's entries and of all that is in them. -/
theorem forall_liesIn_directory {Q : List (String × Node) → Prop}
    {children : List (String × Node)} :
    (∀ below, (directory below).LiesIn (.directory children) → Q below) ↔
      Q children ∧ ∀ e ∈ children, ∀ below, (directory below).LiesIn e.2 → Q below := by
  constructor
  · exact fun h => ⟨h children .itself, fun e he below hbelow => h below (.deeper he hbelow)⟩
  · rintro ⟨hroot, hrest⟩ below hbelow
    rcases liesIn_directory_iff.1 hbelow with heq | ⟨e, he, hbelow⟩
    · exact (directory.inj heq) ▸ hroot
    · exact hrest e he below hbelow

theorem distinct_iff {node : Node} : node.Distinct ↔
    ∀ children, (directory children).LiesIn node → (Entries.names children).Nodup := by
  induction node using nested_induction with
  | hfile content => exact iff_of_true trivial fun children h => absurd h not_liesIn_file
  | hdirectory children ih =>
    rw [forall_liesIn_directory, Distinct, distinctIn_iff]
    exact and_congr_right fun _ => forall₂_congr ih

theorem forall_mem_names_iff {P : String → Prop} {node : Node} : (∀ name ∈ node.names, P name) ↔
    ∀ children, (directory children).LiesIn node → ∀ name ∈ Entries.names children, P name := by
  induction node using nested_induction with
  | hfile content =>
    exact iff_of_true (fun name h => absurd h List.not_mem_nil)
      fun children h => absurd h not_liesIn_file
  | hdirectory children ih =>
    rw [forall_liesIn_directory, names]
    constructor
    · intro h
      refine ⟨fun name hname => ?_, fun e he => (ih e he).1 fun name hname => ?_⟩
      · obtain ⟨e, he, rfl⟩ := List.mem_map.1 hname
        exact h _ (mem_namesIn.2 ⟨e, he, Or.inl rfl⟩)
      · exact h name (mem_namesIn.2 ⟨e, he, Or.inr hname⟩)
    · rintro ⟨hnames, hrest⟩ name hname
      obtain ⟨e, he, rfl | hname⟩ := mem_namesIn.1 hname
      · exact hnames _ (List.mem_map_of_mem he)
      · exact (ih e he).2 (hrest e he) name hname

end Node

namespace FileSystem

structure IsWellFormed (fs : FileSystem) : Prop where
  root : fs.root.isDirectory = true
  names : ∀ children, (Node.directory children).LiesIn fs.root →
    ∀ name ∈ Entries.names children, Path.IsComponent name
  once : ∀ children, (Node.directory children).LiesIn fs.root → (Entries.names children).Nodup

theorem isWellFormed_iff {fs : FileSystem} : fs.IsWellFormed ↔ fs.root.isDirectory = true ∧
    (∀ name ∈ fs.root.names, Path.IsComponent name) ∧ fs.root.Distinct := by
  rw [Node.forall_mem_names_iff, Node.distinct_iff]
  exact ⟨fun h => ⟨h.root, h.names, h.once⟩, fun h => ⟨h.1, h.2.1, h.2.2⟩⟩

theorem isWellFormed_edited {edits : List Edit} (h : ∀ edit ∈ edits, edit.Distinct) :
    (empty.edited edits).IsWellFormed :=
  isWellFormed_iff.2 ⟨isDirectory_edited edits, isComponent_of_mem_edited edits, distinct_edited h⟩

/-! ### Reading a tree -/

theorem firstInvalid_eq_none_iff {node : Node} :
    firstInvalid node = none ↔ ∀ name ∈ node.names, Path.IsComponent name := by
  rw [← badName?_eq_firstInvalid, Node.badName?_eq_none_iff]

/-- The root is looked at before the names. -/
theorem ofNode_cases (root : Node) :
    (∃ content, root = .file content ∧ ofNode root = .error .rootNotDirectory) ∨
    ∃ children, root = .directory children ∧
      ((∃ name, firstInvalid root = some name ∧ ofNode root = .error (.invalidName name)) ∨
        firstInvalid root = none ∧ ofNode root = .ok ⟨root⟩) := by
  cases root with
  | file content => exact Or.inl ⟨content, rfl, rfl⟩
  | directory children =>
    refine Or.inr ⟨children, rfl, ?_⟩
    rw [← badName?_eq_firstInvalid]
    cases hbad : (Node.directory children).badName? with
    | some name => exact Or.inl ⟨name, rfl, by simp [ofNode, Node.isFile, hbad]⟩
    | none => exact Or.inr ⟨rfl, by simp [ofNode, Node.isFile, hbad]⟩

/-- What reading `text` comes to, by the node that it describes. -/
structure ReadsByNode (text : String) : Prop where
  accepted : ∀ fs, ofJson text = .ok fs ↔ Node.read? text = some fs.root ∧ fs.IsWellFormed
  unreadable : ofJson text = .error .unreadable ↔ Node.read? text = none
  fileRoot : ofJson text = .error .rootNotDirectory ↔
    ∃ content, Node.read? text = some (.file content)
  invalidName : ∀ name, ofJson text = .error (.invalidName name) ↔
    ∃ children, Node.read? text = some (.directory children) ∧
      firstInvalid (.directory children) = some name
  noOther : ∀ path, ofJson text ≠ .error (.notADirectory path)

/-- No text describes a directory with a name twice, so only the root and the names matter. -/
theorem isWellFormed_iff_of_read? {text : String} {root : Node}
    (h : Node.read? text = some root) : IsWellFormed ⟨root⟩ ↔
      root.isDirectory = true ∧ firstInvalid root = none := by
  rw [isWellFormed_iff, firstInvalid_eq_none_iff]
  exact ⟨fun hwf => ⟨hwf.1, hwf.2.1⟩, fun hwf => ⟨hwf.1, hwf.2, Node.distinct_of_read? h⟩⟩

theorem readsByNode (text : String) : ReadsByNode text := by
  cases hread : Node.read? text with
  | none =>
    have h : ofJson text = .error .unreadable := by simp [ofJson, hread]
    constructor <;> simp [h, hread]
  | some root =>
    have hroot : ofJson text = ofNode root := by simp [ofJson, hread]
    have haccepted : ∀ fs : FileSystem, root = fs.root ∧ fs.IsWellFormed ↔
        ⟨root⟩ = fs ∧ root.isDirectory = true ∧ firstInvalid root = none := by
      rintro ⟨r⟩
      rw [← isWellFormed_iff_of_read? hread, FileSystem.mk.injEq]
      exact and_congr_right fun h => by rw [h]
    rcases ofNode_cases root with
      ⟨content, rfl, h⟩ | ⟨children, rfl, ⟨name, hbad, h⟩ | ⟨hgood, h⟩⟩
    · constructor <;> simp [hread, hroot, h, haccepted, Node.isDirectory]
    · constructor <;> simp [hread, hroot, h, haccepted, hbad]
    · constructor <;> simp [hread, hroot, h, haccepted, hgood, Node.isDirectory]

/-- After any edits, failing ones among them, the tree is well formed as long as the nodes that they
insert map names to nodes; and of all texts exactly those that describe a well-formed tree are read
as a tree. -/
theorem wellFormed_throughout :
    (∀ edits : List Edit, (∀ edit ∈ edits, edit.Distinct) → (empty.edited edits).IsWellFormed) ∧
      ∀ text, ReadsByNode text :=
  ⟨fun _ hedits => isWellFormed_edited hedits, readsByNode⟩

/-- A file in the way and an invalid name make two insertions fail before one succeeds. -/
theorem wellFormed_throughout_failures :
    let edits := [Edit.insertFile "/a/b" "", .insertFile "/a/b/c" "",
      .insert "/" (.directory [("x/y", .file "")]),
      .insert "//a//" (.directory [("..", .directory []), ("b", .file "")])]
    let fs := empty.edited edits
    (∀ edit ∈ edits, edit.Distinct) ∧ fs.IsWellFormed ∧
      fs.lookup "/a/.." = some (.directory []) ∧ fs.lookup "/x/y" = none := by
  intro edits fs
  have hedits : ∀ edit ∈ edits, edit.Distinct := by
    simp [edits, Edit.Distinct, Node.Distinct, Node.DistinctIn, Entries.names]
  exact ⟨hedits, wellFormed_throughout.1 edits hedits, rfl, rfl⟩

end FileSystem

end TreeShell
