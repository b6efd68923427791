import TreeShell.Proofs.Tree.Placement
import TreeShell.Proofs.Tree.Reading

/-! # The shape of trees

Whatever edits a tree goes through, its root is a directory and its names are components of
paths; if no directory of an inserted node has one name twice, none of the tree has. -/

namespace TreeShell

namespace Node

mutual

/-- A directory maps names to nodes, so no two of its entries have one name. -/
def Distinct : Node → Prop
  | .file _ => True
  | .directory children => (Entries.names children).Nodup ∧ DistinctIn children

def DistinctIn : List (String × Node) → Prop
  | [] => True
  | (_, child) :: rest => child.Distinct ∧ DistinctIn rest

end

theorem distinctIn_iff {children : List (String × Node)} :
    DistinctIn children ↔ ∀ e ∈ children, e.2.Distinct := by
  induction children with
  | nil => simp [DistinctIn]
  | cons e rest ih => simp [DistinctIn, ih]

theorem distinct_emptyDirectory : (directory []).Distinct := ⟨List.nodup_nil, trivial⟩

theorem mem_namesIn {children : List (String × Node)} {name : String} :
    name ∈ namesIn children ↔ ∃ e ∈ children, name = e.1 ∨ name ∈ e.2.names := by
  induction children with
  | nil => simp [namesIn]
  | cons e rest ih => simp [namesIn, ih, or_assoc]

theorem mem_names_place {new node : Node} {names : List String} {name : String}
    (h : name ∈ (place new names node).2.names) :
    name ∈ new.names ∨ name ∈ names ∨ name ∈ node.names := by
  induction names generalizing node with
  | nil => exact Or.inl h
  | cons n names ih =>
    cases node with
    | file content => exact Or.inr (Or.inr h)
    | directory children =>
      simp only [place, Node.names, mem_namesIn] at h
      obtain ⟨e, he, hname⟩ := h
      rcases Entries.mem_put he with rfl | he
      · rcases hname with rfl | hname
        · exact Or.inr (Or.inl List.mem_cons_self)
        · rcases ih hname with h | h | h
          · exact Or.inl h
          · exact Or.inr (Or.inl (List.mem_cons_of_mem _ h))
          · cases hchild : Entries.get? n children with
            | none => simp [hchild, Node.names, namesIn] at h
            | some child =>
              rw [hchild] at h
              exact Or.inr (Or.inr (mem_namesIn.2 ⟨_, Entries.mem_of_get? hchild, Or.inr h⟩))
      · exact Or.inr (Or.inr (mem_namesIn.2 ⟨e, he, hname⟩))

theorem distinct_place {new node : Node} (hnew : new.Distinct) (h : node.Distinct)
    (names : List String) : (place new names node).2.Distinct := by
  induction names generalizing node with
  | nil => exact hnew
  | cons n names ih =>
    cases node with
    | file content => exact h
    | directory children =>
      obtain ⟨hnodup, hin⟩ := h
      rw [distinctIn_iff] at hin
      have hchild : ((Entries.get? n children).getD (directory [])).Distinct := by
        cases hget : Entries.get? n children with
        | none => exact distinct_emptyDirectory
        | some child => exact hin _ (Entries.mem_of_get? hget)
      refine ⟨Entries.nodup_put hnodup _ _, distinctIn_iff.2 fun e he => ?_⟩
      rcases Entries.mem_put he with rfl | he
      · exact ih hchild
      · exact hin e he

theorem distinct_ofList {entries : List (String × Node)} (h : DistinctIn entries) :
    (directory (Entries.ofList entries)).Distinct :=
  ⟨Entries.nodup_ofList entries,
    distinctIn_iff.2 fun e he => distinctIn_iff.1 h e (Entries.mem_of_mem_ofList he)⟩

mutual

theorem distinct_settled : ∀ written : Node, written.settled.Distinct
  | .file _ => trivial
  | .directory children => distinct_ofList (distinctIn_settledIn children)

theorem distinctIn_settledIn : ∀ children : List (String × Node), DistinctIn (settledIn children)
  | [] => trivial
  | (_, child) :: rest => ⟨distinct_settled child, distinctIn_settledIn rest⟩

end

mutual

/-- Where no name stands twice there is nothing to settle. -/
theorem settled_of_distinct : ∀ {node : Node}, node.Distinct → node.settled = node
  | .file _, _ => rfl
  | .directory children, h => by
    rw [settled, settledIn_of_distinctIn h.2, Entries.ofList_of_nodup h.1]

theorem settledIn_of_distinctIn : ∀ {children : List (String × Node)}, DistinctIn children →
    settledIn children = children
  | [], _ => rfl
  | (name, child) :: rest, h => by
    rw [settledIn, settled_of_distinct h.1, settledIn_of_distinctIn h.2]

end

theorem distinct_of_read? {text : String} {node : Node} (h : read? text = some node) :
    node.Distinct := by
  obtain ⟨v, -, hv⟩ := read?_eq_some h
  obtain ⟨written, -, rfl⟩ := ofValue?_eq_some_iff.1 hv
  exact distinct_settled written

end Node

/-- The directories of a node that an edit inserts map names to nodes. -/
def Edit.Distinct : Edit → Prop
  | .insert _ node => node.Distinct
  | _ => True

def Edit.Inserts (node : Node) : Edit → Prop
  | .insert _ new => node = new
  | .insertFile _ content => node = .file content
  | .insertDirectory _ => node = .directory []
  | _ => False

theorem Edit.Distinct.of_inserts {edit : Edit} (h : edit.Distinct) {node : Node}
    (hnode : edit.Inserts node) : node.Distinct := by
  cases edit with
  | insert path new =>
    obtain rfl := hnode
    exact h
  | insertFile path content =>
    obtain rfl := hnode
    trivial
  | insertDirectory path =>
    obtain rfl := hnode
    exact Node.distinct_emptyDirectory
  | _ => exact hnode.elim

namespace FileSystem

section
variable {P : FileSystem → Prop} {Q : Node → Prop}

/-- A property of the trees that edits build has to hold of those that an edit sets up or reads,
and an insertion that makes a new root or puts a node in place has to keep it. -/
theorem edited_induction (hempty : P empty) (hseed : P seed)
    (hload : ∀ text fs, ofJson text = .ok fs → P fs)
    (hroot : ∀ node, Q node → node.badName? = none → node.isDirectory = true → P ⟨node⟩)
    (hplace : ∀ fs node path, Q node → node.badName? = none → Path.components path ≠ [] → P fs →
      P ⟨(Node.place node (Path.components path) fs.root).2⟩)
    {edits : List Edit} (hedits : ∀ edit ∈ edits, ∀ node, edit.Inserts node → Q node) :
    P (empty.edited edits) := by
  have hinsert : ∀ fs path node, Q node → P fs → P (fs.insert path node).2 := by
    intro fs path node hnode h
    rcases insert_tree_cases path node fs with hi | ⟨hbad, ⟨hdir, hi⟩ | ⟨hpath, hi⟩⟩
    · rwa [hi]
    · rw [hi]
      exact hroot node hnode hbad hdir
    · rw [hi]
      exact hplace fs node path hnode hbad hpath h
  have happly : ∀ fs (edit : Edit), (∀ node, edit.Inserts node → Q node) → P fs →
      P (edit.apply fs).2 := by
    intro fs edit hedit h
    cases edit with
    | clear => exact hempty
    | seed => exact hseed
    | load text =>
      cases htext : ofJson text with
      | error e => simpa [Edit.apply, htext] using h
      | ok loaded => simpa [Edit.apply, htext] using hload text loaded htext
    | insert path node => exact hinsert fs path node (hedit node rfl) h
    | insertFile path content => exact hinsert fs path _ (hedit _ rfl) h
    | insertDirectory path => exact hinsert fs path _ (hedit _ rfl) h
  have hall : ∀ edits : List Edit, (∀ edit ∈ edits, ∀ node, edit.Inserts node → Q node) →
      ∀ fs, P fs → P (fs.edited edits) := by
    intro edits
    induction edits with
    | nil => exact fun _ fs h => h
    | cons edit edits ih =>
      intro hedits fs h
      rw [List.forall_mem_cons] at hedits
      exact ih hedits.2 (edit.apply fs).2 (happly fs edit hedits.1 h)
  exact hall edits hedits empty hempty

end

theorem isDirectory_edited (edits : List Edit) :
    (empty.edited edits).root.isDirectory = true :=
  edited_induction (P := fun fs => fs.root.isDirectory = true) (Q := fun _ => True) rfl rfl
    (fun _ _ h => (ofJson_eq_ok h).2.1) (fun _ _ _ hdir => hdir)
    (fun _ _ _ _ _ hpath h => Node.isDirectory_place hpath h) fun _ _ _ _ => trivial

theorem isComponent_of_mem_edited (edits : List Edit) :
    ∀ name ∈ (empty.edited edits).root.names, Path.IsComponent name := by
  refine edited_induction (P := fun fs => ∀ name ∈ fs.root.names, Path.IsComponent name)
    (Q := fun _ => True) ?_ ?_ ?_ ?_ ?_ fun _ _ _ _ => trivial
  · simp [empty, Node.names, Node.namesIn]
  · exact Node.badName?_eq_none_iff.1 rfl
  · exact fun text fs h => Node.badName?_eq_none_iff.1 (ofJson_eq_ok h).2.2
  · exact fun node _ hbad _ => Node.badName?_eq_none_iff.1 hbad
  · intro fs node path _ hbad _ h name hname
    rcases Node.mem_names_place hname with hname | hname | hname
    · exact Node.badName?_eq_none_iff.1 hbad name hname
    · exact Path.isComponent_of_mem hname
    · exact h name hname

theorem distinct_edited {edits : List Edit} (hedits : ∀ edit ∈ edits, edit.Distinct) :
    (empty.edited edits).root.Distinct := by
  refine edited_induction (P := fun fs => fs.root.Distinct) (Q := Node.Distinct)
    Node.distinct_emptyDirectory ?_ ?_ ?_ ?_ fun edit he _ => (hedits edit he).of_inserts
  · simp [seed, Node.Distinct, Node.DistinctIn, Entries.names]
  · exact fun text fs h => Node.distinct_of_read? (ofJson_eq_ok h).1
  · exact fun node hnode _ _ => hnode
  · exact fun fs node path hnode _ _ h => Node.distinct_place hnode h _

end FileSystem

end TreeShell
