import TreeShell.Proofs.Tree.Placement

/-! # What an insertion changes

An insertion that succeeds decides what every path leads to afterwards. From the place of the new
node on, paths lead into this node. On the way to it every directory gets or keeps one entry for the
next name, and a directory that was missing holds nothing else. All other paths lead where they led
before. -/

namespace TreeShell

namespace Node

variable {new node : Node} {name : String} {names : List String}

theorem descend?_directory_cons (children : List (String × Node)) (name : String)
    (names : List String) : (directory children).descend? (name :: names) =
      (Entries.get? name children).bind (descend? · names) :=
  rfl

/-- Nothing but itself is in an empty directory. -/
theorem eq_of_descend?_emptyDirectory {below : Node}
    (h : (directory []).descend? names = some below) : below = directory [] := by
  cases names with
  | nil => exact (Option.some.inj h).symm
  | cons name names => cases h

/-- A walk that gets to its place takes its first name in a directory, and goes on in the child of
that name or, where there is none, in a new directory. -/
theorem place_cons_cases (h : (place new (name :: names) node).1 = .placed) :
    ∃ children child, node = .directory children ∧
      child = (Entries.get? name children).getD (.directory []) ∧
        (place new names child).1 = .placed ∧ (place new (name :: names) node).2 =
          .directory (Entries.put name (place new names child).2 children) := by
  cases node with
  | file content => cases h
  | directory children => exact ⟨children, _, rfl, rfl, placement_below_eq_placed.1 h, rfl⟩

/-- From its place on there is the new node. -/
theorem descend?_place_append (h : (place new names node).1 = .placed) (below : List String) :
    (place new names node).2.descend? (names ++ below) = new.descend? below := by
  induction names generalizing node with
  | nil => rfl
  | cons name names ih =>
    obtain ⟨children, child, rfl, -, hchild, hplace⟩ := place_cons_cases h
    rw [hplace, List.cons_append, descend?_directory_cons, Entries.get?_put_self]
    exact ih hchild

/-- On the way to its place one entry is set, in a directory that was there or is new. -/
theorem descend?_place_above {above rest : List String}
    (h : (place new (above ++ name :: rest) node).1 = .placed) :
    ∃ old children value,
      (node.descend? above = none ∧ old = [] ∨ node.descend? above = some (.directory old)) ∧
        (place new (above ++ name :: rest) node).2.descend? above = some (.directory children) ∧
          Entries.Sets name value old children := by
  induction above generalizing node with
  | nil =>
    obtain ⟨children, child, rfl, -, -, hplace⟩ := place_cons_cases h
    exact ⟨children, _, _, Or.inr rfl, congrArg some hplace, Entries.sets_put _ _ _⟩
  | cons n above ih =>
    rw [List.cons_append] at h ⊢
    obtain ⟨children, child, rfl, hentered, hchild, hplace⟩ := place_cons_cases h
    obtain ⟨old, children', value, hold, hnew, hsets⟩ := ih hchild
    refine ⟨old, children', value, ?_, ?_, hsets⟩
    · rw [descend?_directory_cons]
      cases hget : Entries.get? n children with
      | some c =>
        rw [hget, Option.getD_some] at hentered
        rwa [hentered] at hold
      | none =>
        -- The directory in which the walk goes on has just been made.
        rw [hget, Option.getD_none] at hentered
        rw [hentered] at hold
        refine Or.inl ⟨rfl, ?_⟩
        rcases hold with ⟨-, hempty⟩ | hdirectory
        · exact hempty
        · exact directory.inj (eq_of_descend?_emptyDirectory hdirectory)
    · rw [hplace, descend?_directory_cons, Entries.get?_put_self]
      exact hnew

/-- Names that part from the way lead where they led before. -/
theorem descend?_place_of_parting {others : List String}
    (h : (place new names node).1 = .placed) (hbelow : ¬ names <+: others)
    (habove : ¬ others <+: names) :
    (place new names node).2.descend? others = node.descend? others := by
  induction names generalizing node others with
  | nil => exact absurd List.nil_prefix hbelow
  | cons name names ih =>
    obtain ⟨children, child, rfl, hentered, hchild, hplace⟩ := place_cons_cases h
    cases others with
    | nil => exact absurd List.nil_prefix habove
    | cons other others =>
      rw [hplace, descend?_directory_cons, descend?_directory_cons]
      by_cases hname : other = name
      · subst hname
        rw [List.cons_prefix_cons, and_iff_right rfl] at hbelow habove
        rw [Entries.get?_put_self, Option.bind_some, ih hchild hbelow habove, hentered]
        cases hget : Entries.get? other children with
        | some c => rfl
        | none =>
          cases others with
          | nil => exact absurd List.nil_prefix habove
          | cons n others => rfl
      · rw [Entries.get?_put_of_ne hname]

end Node

namespace FileSystem

/-- What every path leads to when `node` has been put at `path` in the tree `before`. -/
structure IsPut (path : String) (node : Node) (before after : FileSystem) : Prop where
  itself : after.lookup path = some node
  /-- A path without names is that of the root. -/
  root : Path.components path = [] → after.root = node
  below : ∀ q rest, Path.components q = Path.components path ++ rest →
    after.lookup q = node.descend? rest
  /-- A directory on the way is there, with the children that it had before, if it was there, and
  only the entry of the next name new or changed. -/
  above : ∀ q name rest, Path.components path = Path.components q ++ name :: rest →
    ∃ old children child,
      (before.lookup q = none ∧ old = [] ∨ before.lookup q = some (.directory old)) ∧
        after.lookup q = some (.directory children) ∧ Entries.Sets name child old children
  elsewhere : ∀ q, ¬ Path.components path <+: Path.components q →
    ¬ Path.components q <+: Path.components path → after.lookup q = before.lookup q

theorem insert_eq_ok {path : String} {node : Node} {fs : FileSystem}
    (h : (fs.insert path node).1 = .ok ()) :
    (Node.place node (Path.components path) fs.root).1 = .placed ∧
      (fs.insert path node).2 = ⟨(Node.place node (Path.components path) fs.root).2⟩ := by
  cases hbad : node.badName? with
  | some name =>
    rw [insert_of_badName hbad] at h
    cases h
  | none =>
    by_cases hpath : Path.components path = []
    · rw [insert_at_root hbad hpath] at h ⊢
      cases node with
      | file content => cases h
      | directory children =>
        rw [hpath]
        exact ⟨rfl, rfl⟩
    · rcases insert_below_root hbad hpath with ⟨walked, -, hinsert⟩ | ⟨hplaced, hinsert⟩
      · rw [hinsert] at h
        cases h
      · exact ⟨hplaced, by rw [hinsert]⟩

/-- An insertion that succeeds puts the node at its path and touches nothing else. -/
theorem isPut_insert {path : String} {node : Node} {fs : FileSystem}
    (h : (fs.insert path node).1 = .ok ()) : IsPut path node fs (fs.insert path node).2 := by
  obtain ⟨hplaced, hinsert⟩ := insert_eq_ok h
  rw [hinsert]
  have hbelow := Node.descend?_place_append hplaced
  have hitself : lookup ⟨(Node.place node (Path.components path) fs.root).2⟩ path = some node := by
    simpa [lookup, Node.descend?] using hbelow []
  exact
    { itself := hitself
      root := fun hpath => by rw [hpath, Node.place]
      below := fun q rest hq => by rw [lookup, hq, hbelow]
      above := fun q name rest hq => by
        simp only [lookup]
        rw [hq] at hplaced ⊢
        exact Node.descend?_place_above hplaced
      elsewhere := fun q hq hq' => Node.descend?_place_of_parting hplaced hq hq' }

/-- A directory takes the place of a file between its neighbours, and two directories that were
missing are made on the way to another one. -/
theorem isPut_insert_over_file :
    let fs := empty.edited [.insertFile "/a/x" "1", .insertFile "/a/b" "2", .insertFile "/a/y" "3"]
    let new : Node := .directory [("c", .file "4")]
    let changed := (fs.insert "//a//b/" new).2
    let extended := (fs.insert "/d/e/f" new).2
    (fs.insert "//a//b/" new).1 = .ok () ∧ changed.lookup "a/b/c" = some (.file "4") ∧
      changed.lookup "/a" = some (.directory [("x", .file "1"), ("b", new), ("y", .file "3")]) ∧
      changed.lookup "/a/y" = fs.lookup "/a/y" ∧ changed.lookup "/a/x/c" = none ∧
        (fs.insert "/d/e/f" new).1 = .ok () ∧
          extended.lookup "/d" = some (.directory [("e", .directory [("f", new)])]) ∧
            extended.lookup "/d/c" = none := by
  intro fs new changed extended
  have hchanged := @isPut_insert "//a//b/" new fs rfl
  have hextended := @isPut_insert "/d/e/f" new fs rfl
  refine ⟨rfl, hchanged.below "a/b/c" ["c"] rfl, rfl, hchanged.elsewhere "/a/y" (by decide) (by decide),
    hchanged.elsewhere "/a/x/c" (by decide) (by decide), rfl, rfl, ?_⟩
  exact hextended.elsewhere "/d/c" (by decide) (by decide)

end FileSystem

end TreeShell
