import TreeShell.Proofs.Path.Canonical
import TreeShell.Tree.Path

/-! # Walks and lexical resolution

To resolve a path drops and takes names off a list and asks the tree only at the end; a walk asks
it at every step. Each step of a walk changes its location as the path does lexically, and the
location always names the node on which the walk stands. So where the walk arrives, there the path
resolves to. -/

namespace TreeShell

namespace Position

/-- The directories above lead down to the node, the last of them being the root. -/
def Leads (root : Node) : (above : List (String × Node)) → (node : Node) → Prop
  | [], node => node = root
  | (name, dir) :: above, node => dir.child? name = some node ∧ Leads root above dir

/-- The position is in the tree with the given root. -/
def IsIn (root : Node) (p : Position) : Prop := Leads root p.above p.node

theorem isIn_ofRoot (root : Node) : (ofRoot root).IsIn root := rfl

theorem location_cons (node dir : Node) (name : String) (above : List (String × Node)) :
    location ⟨node, (name, dir) :: above⟩ = location ⟨dir, above⟩ ++ [name] := by
  simp [location]

/-- A position is at the node that its location names. -/
theorem IsIn.descend? {root : Node} {p : Position} (h : p.IsIn root) :
    root.descend? p.location = some p.node := by
  obtain ⟨node, above⟩ := p
  induction above generalizing node with
  | nil => exact congrArg some (Eq.symm h)
  | cons step above ih =>
    obtain ⟨name, dir⟩ := step
    obtain ⟨hchild, habove⟩ := h
    rw [location_cons, Node.descend?_append, ih dir habove]
    simp [Node.descend?, hchild]

/-- The way to a position starts at the root. -/
theorem IsIn.root_eq {root : Node} {p : Position} (h : p.IsIn root) :
    (p.above.getLast?.map Prod.snd).getD p.node = root := by
  obtain ⟨node, above⟩ := p
  induction above generalizing node with
  | nil => exact h
  | cons step above ih =>
    obtain ⟨name, dir⟩ := step
    have hdir := ih dir h.2
    cases above with
    | nil => exact hdir
    | cons next above => simpa [List.getLast?_cons] using hdir

/-! ## Steps -/

/-- What a step does. -/
theorem move_cases {p q : Position} {c : String} (h : p.move c = .ok q) :
    (c = "." ∧ q = p) ∨ (c = ".." ∧ p.above = [] ∧ q = p) ∨
      (c = ".." ∧ ∃ name dir above, p.above = (name, dir) :: above ∧ q = ⟨dir, above⟩) ∨
      (c ≠ "." ∧ c ≠ ".." ∧ ∃ child, p.node.child? c = some child ∧
        q = ⟨child, (c, p.node) :: p.above⟩) := by
  obtain ⟨node, above⟩ := p
  cases node with
  | file content => cases h
  | directory children =>
    simp only [move] at h
    by_cases hdot : c = "."
    · rw [if_pos hdot] at h
      exact Or.inl ⟨hdot, (Except.ok.inj h).symm⟩
    · rw [if_neg hdot] at h
      by_cases hdots : c = ".."
      · rw [if_pos hdots] at h
        cases above with
        | nil => exact Or.inr (Or.inl ⟨hdots, rfl, (Except.ok.inj h).symm⟩)
        | cons step above =>
          exact Or.inr (Or.inr (Or.inl ⟨hdots, _, _, _, rfl, (Except.ok.inj h).symm⟩))
      · rw [if_neg hdots] at h
        cases hchild : Entries.get? c children with
        | none =>
          rw [hchild] at h
          cases h
        | some child =>
          rw [hchild] at h
          exact Or.inr (Or.inr (Or.inr ⟨hdot, hdots, child, hchild, (Except.ok.inj h).symm⟩))

theorem IsIn.move {root : Node} {p q : Position} {c : String} (hp : p.IsIn root)
    (h : p.move c = .ok q) : q.IsIn root := by
  rcases move_cases h with
    ⟨-, rfl⟩ | ⟨-, -, rfl⟩ | ⟨-, name, dir, above, habove, rfl⟩ | ⟨-, -, child, hchild, rfl⟩
  · exact hp
  · exact hp
  · rw [IsIn, habove] at hp
    exact hp.2
  · exact ⟨hchild, hp⟩

/-- A step changes the location as its component does lexically. -/
theorem location_move {p q : Position} {c : String} (h : p.move c = .ok q) :
    q.location = Path.step p.location c := by
  rcases move_cases h with
    ⟨rfl, rfl⟩ | ⟨rfl, habove, rfl⟩ | ⟨rfl, name, dir, above, habove, rfl⟩ |
      ⟨hdot, hdots, child, hchild, rfl⟩
  · rfl
  · simp [Path.step, location, habove]
  · simp [Path.step, location, habove]
  · rw [location_cons, Path.step, if_neg hdot, if_neg hdots]

/-- A plain name is taken whenever there is such a child. -/
theorem move_of_child? {p : Position} {name : String} {child : Node} (hname : Path.IsPlain name)
    (h : p.node.child? name = some child) : p.move name = .ok ⟨child, (name, p.node) :: p.above⟩ := by
  obtain ⟨node, above⟩ := p
  cases node with
  | file content => cases h
  | directory children =>
    have hget : Entries.get? name children = some child := h
    simp only [move, if_neg hname.2.1, if_neg hname.2.2, hget]

/-! ## Walks -/

theorem moves_cons {p q : Position} {c : String} {cs : List String}
    (h : p.moves (c :: cs) = .ok q) : ∃ r, p.move c = .ok r ∧ r.moves cs = .ok q := by
  unfold moves at h
  split at h
  · rename_i r hr
    exact ⟨r, hr, h⟩
  · cases h

/-- A walk stays in the tree and ends at the location that its components lead to lexically. -/
theorem IsIn.moves {root : Node} {p q : Position} {cs : List String} (hp : p.IsIn root)
    (h : p.moves cs = .ok q) : q.IsIn root ∧ q.location = Path.follow p.location cs := by
  induction cs generalizing p with
  | nil =>
    obtain rfl := Except.ok.inj h
    exact ⟨hp, rfl⟩
  | cons c cs ih =>
    obtain ⟨r, hr, hq⟩ := moves_cons h
    obtain ⟨hin, hlocation⟩ := ih (hp.move hr) hq
    exact ⟨hin, by rw [hlocation, location_move hr]; rfl⟩

theorem moves_of_descend? {p : Position} {names : List String} {node : Node}
    (hnames : ∀ name ∈ names, Path.IsPlain name) (h : p.node.descend? names = some node) :
    ∃ q, p.moves names = .ok q ∧ q.node = node := by
  induction names generalizing p with
  | nil => exact ⟨p, rfl, Option.some.inj h⟩
  | cons name names ih =>
    rw [List.forall_mem_cons] at hnames
    obtain ⟨child, hchild, hbelow⟩ := Option.bind_eq_some_iff.1 h
    have hmove := move_of_child? hnames.1 hchild
    obtain ⟨q, hq, hnode⟩ := ih (p := ⟨child, (name, p.node) :: p.above⟩) hnames.2 hbelow
    exact ⟨q, by simp only [moves, hmove, hq], hnode⟩

/-- A walk along `path` succeeds when its steps do and it does not end in a slash on a file. -/
theorem walk_eq_ok_iff {root : Node} {p q : Position} (hp : p.IsIn root) {path : String} :
    p.walk path = .ok q ↔
      (if Path.isAbsolute path then ofRoot root else p).moves (Path.components path) = .ok q ∧
        (q.node.isFile && Path.endsInSlash path) = false := by
  unfold walk
  rw [hp.root_eq]
  dsimp only
  constructor
  · intro h
    split at h
    · cases h
    · rename_i r hr
      split at h
      · cases h
      · rename_i hslash
        obtain rfl := Except.ok.inj h
        exact ⟨hr, by simpa using hslash⟩
  · rintro ⟨hq, hslash⟩
    simp [hq, hslash]

/-- A walk from the location of `cwd` ends where `path` leads lexically. -/
theorem IsIn.walk {root : Node} {p q : Position} (hp : p.IsIn root) {cwd path : String}
    (hcwd : p.location = Path.follow [] (Path.components cwd)) (h : p.walk path = .ok q) :
    q.IsIn root ∧ q.location = Path.locate cwd path := by
  obtain ⟨hmoves, -⟩ := (walk_eq_ok_iff hp).1 h
  unfold Path.locate
  by_cases habs : Path.isAbsolute path = true
  · rw [if_pos habs] at hmoves ⊢
    exact (isIn_ofRoot root).moves hmoves
  · rw [if_neg habs] at hmoves ⊢
    rw [Path.follow_append, ← hcwd]
    exact hp.moves hmoves

end Position

namespace FileSystem

/-- The directory at a canonical path can be walked to from the root. -/
theorem walk_of_isCanonical {fs : FileSystem} {cwd : String} (hcwd : Path.IsCanonical cwd)
    (hdir : fs.HasDirectory cwd) : ∃ start, (Position.ofRoot fs.root).walk cwd = .ok start ∧
      start.IsIn fs.root ∧ start.location = Path.components cwd ∧
        fs.lookup cwd = some start.node := by
  obtain ⟨hplain, hrender⟩ := Path.components_of_isCanonical hcwd
  obtain ⟨children, hlookup⟩ := hdir
  have habs : Path.isAbsolute cwd = true := by
    rw [hrender]
    exact Path.isAbsolute_render _
  obtain ⟨start, hmoves, hnode⟩ :=
    Position.moves_of_descend? (p := .ofRoot fs.root) hplain hlookup
  have hin := Position.isIn_ofRoot fs.root
  refine ⟨start, (Position.walk_eq_ok_iff hin).2 ⟨by rw [if_pos habs, hmoves], ?_⟩, ?_⟩
  · rw [hnode]
    rfl
  · obtain ⟨hstart, hlocation⟩ := hin.moves hmoves
    refine ⟨hstart, ?_, by rw [hlookup, hnode]⟩
    rw [hlocation]
    exact Path.follow_plain hplain

/-- From a directory at a canonical path the node that a walk along a path arrives at is the one
that this path resolves to. -/
theorem resolve_of_walk {fs : FileSystem} {cwd : String} (hcwd : Path.IsCanonical cwd)
    (hdir : fs.HasDirectory cwd) :
    ∃ start, (Position.ofRoot fs.root).walk cwd = .ok start ∧
      start.location = Path.components cwd ∧ fs.lookup cwd = some start.node ∧
      ∀ path x, start.walk path = .ok x →
        fs.root.descend? x.location = some x.node ∧
          fs.resolve cwd path = .ok (Path.render x.location) ∧
            fs.lookup (Path.render x.location) = some x.node := by
  obtain ⟨start, hstart, hin, hlocation, hnode⟩ := walk_of_isCanonical hcwd hdir
  refine ⟨start, hstart, hlocation, hnode, fun path x hx => ?_⟩
  have hplain := (Path.components_of_isCanonical hcwd).1
  have hfollow : start.location = Path.follow [] (Path.components cwd) := by
    rw [hlocation, Path.follow_plain hplain, List.nil_append]
  obtain ⟨hxin, hxlocation⟩ := hin.walk hfollow hx
  have hlookup : fs.lookup (Path.render x.location) = some x.node := by
    rw [hxlocation, lookup_render fs fun name hname => (Path.locate_isPlain cwd path name hname).1,
      ← hxlocation, hxin.descend?]
  refine ⟨hxin.descend?, resolve_eq_ok_iff.2 ⟨?_, x.node, hlookup, ?_⟩, hlookup⟩
  · rw [hxlocation, Path.normalize]
  · exact ((Position.walk_eq_ok_iff hin).1 hx).2

/-- Up past the root and down again, past an entry that is called `..`. -/
theorem resolve_of_walk_past_root :
    let b : Node := .directory [("c", .file "x")]
    let a : Node := .directory [("b", b), ("..", .file "y")]
    let fs : FileSystem := ⟨.directory [("a", a)]⟩
    Path.IsCanonical "/a/b" ∧ fs.HasDirectory "/a/b" ∧
      ∃ start x, (Position.ofRoot fs.root).walk "/a/b" = .ok start ∧
        start.walk "..//./b/../../../a/b/c" = .ok x ∧ x.location = ["a", "b", "c"] ∧
          fs.resolve "/a/b" "..//./b/../../../a/b/c" = .ok "/a/b/c" ∧
            fs.lookup "/a/b/c" = some (.file "x") := by
  intro b a fs
  have hcwd : Path.IsCanonical "/a/b" :=
    ⟨["a", "b"], by simp [Path.IsPlain, Path.IsComponent], rfl⟩
  have hdir : fs.HasDirectory "/a/b" := ⟨[("c", .file "x")], rfl⟩
  obtain ⟨start, hstart, -, -, hwalk⟩ := resolve_of_walk hcwd hdir
  obtain rfl : (⟨b, [("b", a), ("a", fs.root)]⟩ : Position) = start := Except.ok.inj hstart
  let x : Position := ⟨.file "x", [("c", b), ("b", a), ("a", fs.root)]⟩
  have hx : (⟨b, [("b", a), ("a", fs.root)]⟩ : Position).walk "..//./b/../../../a/b/c" = .ok x := rfl
  have hrender : Path.render ["a", "b", "c"] = "/a/b/c" := by decide
  obtain ⟨-, hresolve, hlookup⟩ := hwalk _ x hx
  have hlocation : x.location = ["a", "b", "c"] := rfl
  rw [hlocation, hrender] at hresolve hlookup
  exact ⟨hcwd, hdir, _, x, hstart, hx, rfl, hresolve, hlookup⟩

end FileSystem

end TreeShell
