import TreeShell.Proofs.Path.Canonical
import TreeShell.Proofs.Tree.Entries
import TreeShell.Tree.Edit

/-! # Walks that put a node in place

The walk makes the directories it misses as it goes, but nothing below a directory just made can
be in its way, so a walk that is blocked has made none: it has met a file and leaves the tree as
it was. -/

namespace TreeShell

namespace Node

mutual

/-- The names in a tree, each of them before those below it. -/
def names : Node → List String
  | .file _ => []
  | .directory children => namesIn children

def namesIn : List (String × Node) → List String
  | [] => []
  | (name, child) :: rest => name :: (child.names ++ namesIn rest)

end

theorem isName_iff {name : String} : isName name = true ↔ Path.IsComponent name := by
  simp [isName, Path.IsComponent]

mutual

theorem badName?_eq_find? : ∀ node : Node, node.badName? = node.names.find? (!isName ·)
  | .file _ => rfl
  | .directory children => badNameIn?_eq_find? children

theorem badNameIn?_eq_find? : ∀ children : List (String × Node),
    badNameIn? children = (namesIn children).find? (!isName ·)
  | [] => rfl
  | (name, child) :: rest => by
    rw [badNameIn?, namesIn, List.find?_cons]
    cases isName name with
    | false => rfl
    | true => simp [badName?_eq_find? child, badNameIn?_eq_find? rest, List.find?_append]

end

theorem badName?_eq_none_iff {node : Node} :
    node.badName? = none ↔ ∀ name ∈ node.names, Path.IsComponent name := by
  simp [badName?_eq_find?, List.find?_eq_none, isName_iff]

theorem placement_below_eq_blocked {name : String} {p : Placement} {walked : List String} :
    p.below name = .blocked walked ↔ ∃ w, p = .blocked w ∧ walked = name :: w := by
  cases p with
  | placed => simp [Placement.below]
  | blocked w => simp [Placement.below, eq_comm]

theorem placement_below_eq_placed {name : String} {p : Placement} :
    p.below name = .placed ↔ p = .placed := by
  cases p <;> simp [Placement.below]

theorem not_descend_emptyDirectory {names : List String} {content : String} :
    (directory []).descend? names ≠ some (.file content) := by
  cases names <;> simp [descend?, child?, Entries.get?]

/-- The walk is blocked exactly by a file that some of the names lead to, all of them not being
used up yet. -/
theorem place_eq_blocked_iff {new node : Node} {names walked : List String} :
    (place new names node).1 = .blocked walked ↔ ∃ above name rest content,
      names = above ++ name :: rest ∧ walked = above ++ [name] ∧
        node.descend? above = some (.file content) := by
  induction names generalizing node walked with
  | nil => simp [place]
  | cons name names ih =>
    cases node with
    | file content =>
      simp only [place, Placement.blocked.injEq]
      constructor
      · rintro rfl
        exact ⟨[], name, names, content, rfl, rfl, rfl⟩
      · rintro ⟨above, n, rest, c, hnames, rfl, hfile⟩
        cases above with
        | nil => exact congrArg (fun n => [n]) (List.cons.inj hnames).1
        | cons m above => simp [descend?, child?] at hfile
    | directory children =>
      simp only [place, placement_below_eq_blocked, ih]
      constructor
      · rintro ⟨_, ⟨above, n, rest, c, rfl, rfl, hfile⟩, rfl⟩
        cases hchild : Entries.get? name children with
        | none =>
          rw [hchild] at hfile
          exact absurd hfile not_descend_emptyDirectory
        | some child =>
          rw [hchild] at hfile
          exact ⟨name :: above, n, rest, c, rfl, rfl, by simpa [descend?, child?, hchild] using hfile⟩
      · rintro ⟨above, n, rest, c, hnames, rfl, hfile⟩
        cases above with
        | nil => simp [descend?] at hfile
        | cons m above =>
          obtain ⟨rfl, rfl⟩ := List.cons.inj hnames
          refine ⟨above ++ [n], ⟨above, n, rest, c, rfl, rfl, ?_⟩, rfl⟩
          cases hchild : Entries.get? name children with
          | none => simp [descend?, child?, hchild] at hfile
          | some child => simpa [descend?, child?, hchild] using hfile

/-- A walk that is blocked leaves the node as it was: below a directory that it makes there is no
file, and of the others it writes what was there. -/
theorem place_of_blocked {new node : Node} {names walked : List String}
    (h : (place new names node).1 = .blocked walked) : (place new names node).2 = node := by
  induction names generalizing node walked with
  | nil => simp [place] at h
  | cons name names ih =>
    cases node with
    | file content => rfl
    | directory children =>
      simp only [place] at h ⊢
      obtain ⟨w, hw, -⟩ := placement_below_eq_blocked.1 h
      rw [ih hw]
      cases hchild : Entries.get? name children with
      | none =>
        rw [hchild] at hw
        obtain ⟨above, n, rest, c, -, -, hfile⟩ := place_eq_blocked_iff.1 hw
        exact absurd hfile not_descend_emptyDirectory
      | some child => rw [Option.getD_some, Entries.put_of_get? hchild]

theorem isFile_of_isDirectory {node : Node} (h : node.isDirectory = true) :
    node.isFile = false := by
  cases node with
  | file content => cases h
  | directory children => rfl

theorem isDirectory_place {new : Node} {names : List String} (hne : names ≠ [])
    {node : Node} (h : node.isDirectory = true) : (place new names node).2.isDirectory = true := by
  cases names with
  | nil => exact absurd rfl hne
  | cons name names =>
    cases node with
    | file content => cases h
    | directory children => rfl

end Node

namespace FileSystem

theorem insert_of_badName {node : Node} {name : String} (h : node.badName? = some name)
    (path : String) (fs : FileSystem) :
    fs.insert path node = (.error (.invalidName name), fs) := by
  simp [insert, h]

theorem insert_at_root {path : String} {node : Node} (h : node.badName? = none)
    (hpath : Path.components path = []) (fs : FileSystem) : fs.insert path node =
      if node.isFile then (.error .rootNotDirectory, fs) else (.ok (), ⟨node⟩) := by
  simp [insert, h, hpath]

theorem insert_below_root {path : String} {node : Node} (h : node.badName? = none)
    (hpath : Path.components path ≠ []) {fs : FileSystem} :
    (∃ walked, (Node.place node (Path.components path) fs.root).1 = .blocked walked ∧
      fs.insert path node = (.error (.notADirectory
        (if walked.length < (Path.components path).length then Path.render walked else path)), fs)) ∨
    (Node.place node (Path.components path) fs.root).1 = .placed ∧
      fs.insert path node = (.ok (), ⟨(Node.place node (Path.components path) fs.root).2⟩) := by
  have hempty : (Path.components path).isEmpty = false := by simpa using hpath
  cases hplace : Node.place node (Path.components path) fs.root with
  | mk outcome root =>
    cases outcome with
    | placed => exact Or.inr ⟨rfl, by simp [insert, h, hempty, hplace]⟩
    | blocked walked =>
      have hroot : root = fs.root := by
        simpa [hplace] using Node.place_of_blocked (congrArg Prod.fst hplace)
      exact Or.inl ⟨walked, rfl, by simp [insert, h, hempty, hplace, hroot]⟩

/-- The tree after an insertion is the one before, the new node, or has the new node in place. -/
theorem insert_tree_cases (path : String) (node : Node) (fs : FileSystem) :
    (fs.insert path node).2 = fs ∨ node.badName? = none ∧
      (node.isDirectory = true ∧ (fs.insert path node).2 = ⟨node⟩ ∨
        Path.components path ≠ [] ∧
          (fs.insert path node).2 = ⟨(Node.place node (Path.components path) fs.root).2⟩) := by
  cases hbad : node.badName? with
  | some name => exact Or.inl (by rw [insert_of_badName hbad])
  | none =>
    by_cases hpath : Path.components path = []
    · rw [insert_at_root hbad hpath]
      cases node with
      | file content => exact Or.inl rfl
      | directory children => exact Or.inr ⟨rfl, Or.inl ⟨rfl, rfl⟩⟩
    · rcases insert_below_root hbad hpath with ⟨walked, -, h⟩ | ⟨-, h⟩
      · exact Or.inl (by rw [h])
      · exact Or.inr ⟨rfl, Or.inr ⟨hpath, by rw [h]⟩⟩

end FileSystem

end TreeShell
