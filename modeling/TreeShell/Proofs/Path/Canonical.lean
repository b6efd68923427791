import TreeShell.Proofs.Text.Pieces
import TreeShell.Tree.Path

/-! # Canonical paths

A canonical path is the text of a location whose names mean themselves: none is empty, holds a
slash or is one of `.` and `..`. Normalizing gives a canonical path whatever the texts are, and
a canonical path has the names of its location as components. -/

namespace TreeShell.Path

/-- What can stand between two slashes of a path. -/
def IsComponent (name : String) : Prop := name ≠ "" ∧ '/' ∉ name.toList

/-- A component that leads down. -/
def IsPlain (name : String) : Prop := IsComponent name ∧ name ≠ "." ∧ name ≠ ".."

def IsCanonical (path : String) : Prop :=
  ∃ location : List String, (∀ name ∈ location, IsPlain name) ∧ path = render location

theorem components_eq (path : String) : components path =
    ((Text.pieces (· == '/') path.toList).filter (!·.isEmpty)).map String.ofList := by
  have hempty (p : List Char) : (String.ofList p != "") = !p.isEmpty := by
    cases p with
    | nil => rfl
    | cons c p => simp [bne, ← String.toList_inj]
  simp only [components, Text.split, List.filter_map, Function.comp_def, hempty]

theorem isComponent_of_mem {path name : String} (h : name ∈ components path) :
    IsComponent name := by
  rw [components_eq, List.mem_map] at h
  obtain ⟨p, hp, rfl⟩ := h
  obtain ⟨hp, hne⟩ := List.mem_filter.1 hp
  constructor
  · rintro h
    simp [← String.toList_inj] at h
    simp [h] at hne
  · intro hslash
    rw [String.toList_ofList] at hslash
    simpa using Text.not_sep_of_mem_pieces hp hslash

theorem toList_render (location : List String) :
    (render location).toList = '/' :: Text.glue ['/'] (location.map String.toList) := by
  simp [render, Text.join]

/-- A path is read back as the names that were written. -/
theorem components_render {location : List String} (h : ∀ name ∈ location, IsComponent name) :
    components (render location) = location := by
  have hfilled : ∀ p ∈ location.map String.toList, p ≠ [] ∧ ∀ c ∈ p, (c == '/') = false := by
    intro p hp
    obtain ⟨name, hname, rfl⟩ := List.mem_map.1 hp
    obtain ⟨hne, hslash⟩ := h name hname
    refine ⟨by simpa using hne, fun c hc => ?_⟩
    rw [beq_eq_false_iff_ne]
    exact fun e => hslash (e ▸ hc)
  rw [components_eq, toList_render]
  simp only [Text.pieces, beq_self_eq_true, if_true, List.filter_cons, List.isEmpty_nil,
    Bool.not_true, Bool.false_eq_true, if_false]
  rw [Text.filled_pieces_glue (by simp) hfilled]
  simp [Function.comp_def]

theorem step_isPlain {location : List String} {component : String}
    (hl : ∀ name ∈ location, IsPlain name) (hc : IsComponent component) :
    ∀ name ∈ step location component, IsPlain name := by
  unfold step
  split
  · exact hl
  · split
    · exact fun name hname => hl name ((List.dropLast_sublist location).subset hname)
    · rename_i hdot hdots
      intro name hname
      rcases List.mem_append.1 hname with hname | hname
      · exact hl name hname
      · obtain rfl := List.mem_singleton.1 hname
        exact ⟨hc, hdot, hdots⟩

theorem follow_isPlain {location cs : List String} (hl : ∀ name ∈ location, IsPlain name)
    (hc : ∀ c ∈ cs, IsComponent c) : ∀ name ∈ follow location cs, IsPlain name := by
  induction cs generalizing location with
  | nil => exact hl
  | cons c cs ih =>
    exact ih (step_isPlain hl (hc c List.mem_cons_self))
      fun d hd => hc d (List.mem_cons_of_mem _ hd)

/-- Plain names are followed down, one after the other. -/
theorem follow_plain {location names : List String} (h : ∀ name ∈ names, IsPlain name) :
    follow location names = location ++ names := by
  induction names generalizing location with
  | nil => simp [follow]
  | cons name names ih =>
    have hn := h name List.mem_cons_self
    change follow (step location name) names = _
    rw [ih fun n hn => h n (List.mem_cons_of_mem _ hn), step, if_neg hn.2.1, if_neg hn.2.2,
      List.append_assoc, List.singleton_append]

theorem locate_of_isAbsolute {path : String} (h : isAbsolute path = true) (cwd : String) :
    locate cwd path = follow [] (components path) := by
  rw [locate, if_pos h]

theorem locate_of_relative {path : String} (h : isAbsolute path = false) (cwd : String) :
    locate cwd path = follow (follow [] (components cwd)) (components path) := by
  rw [locate, h, if_neg Bool.false_ne_true, follow_append]

theorem locate_isPlain (cwd path : String) : ∀ name ∈ locate cwd path, IsPlain name := by
  unfold locate
  split
  · exact follow_isPlain (by simp) fun c hc => isComponent_of_mem hc
  · refine follow_isPlain (by simp) fun c hc => ?_
    rcases List.mem_append.1 hc with hc | hc <;> exact isComponent_of_mem hc

theorem isCanonical_normalize (cwd path : String) : IsCanonical (normalize cwd path) :=
  ⟨locate cwd path, locate_isPlain cwd path, rfl⟩

theorem components_normalize (cwd path : String) :
    components (normalize cwd path) = locate cwd path :=
  components_render fun name hname => (locate_isPlain cwd path name hname).1

theorem components_of_isCanonical {path : String} (h : IsCanonical path) :
    (∀ name ∈ components path, IsPlain name) ∧ path = render (components path) := by
  obtain ⟨location, hplain, rfl⟩ := h
  rw [components_render fun name hname => (hplain name hname).1]
  exact ⟨hplain, rfl⟩

/-- The path `.` leads from a canonical path to itself. -/
theorem normalize_dot {cwd : String} (h : IsCanonical cwd) : normalize cwd "." = cwd := by
  obtain ⟨hplain, hcwd⟩ := components_of_isCanonical h
  have hrelative : isAbsolute "." = false := rfl
  have hdot : components "." = ["."] := rfl
  rw [normalize, locate_of_relative hrelative, hdot, follow_plain hplain, List.nil_append]
  exact hcwd.symm

/-! ## Texts of locations

The text of a location is absolute, ends in a slash only at the root, and grows by one name when
that is joined to it. Normalizing leaves it alone exactly if all of its names are plain. -/

variable {location : List String}

theorem isAbsolute_render (location : List String) : isAbsolute (render location) = true := by
  simp [isAbsolute, toList_render]

theorem toList_render_concat (hne : location ≠ []) (name : String) :
    (render (location ++ [name])).toList = (render location).toList ++ '/' :: name.toList := by
  rw [toList_render, toList_render, List.map_append, List.map_cons, List.map_nil,
    Text.glue_concat _ (by simpa using hne)]
  simp

theorem endsInSlash_render (h : ∀ name ∈ location, IsComponent name) :
    endsInSlash (render location) = location.isEmpty := by
  rcases List.eq_nil_or_concat location with rfl | ⟨above, name, rfl⟩
  · rfl
  · simp only [List.concat_eq_append] at h ⊢
    obtain ⟨hne, hslash⟩ := h name (by simp)
    obtain ⟨c, cs, hname⟩ : ∃ c cs, name.toList = c :: cs :=
      List.exists_cons_of_ne_nil (by simpa using hne)
    have hlast : (render (above ++ [name])).toList.getLast? = name.toList.getLast? := by
      by_cases habove : above = []
      · subst habove
        simp [toList_render, Text.glue, hname]
      · simp [toList_render_concat habove, hname, List.getLast?_cons]
    have hfilled : (above ++ [name]).isEmpty = false := by simp
    rw [endsInSlash, hlast, hfilled, beq_eq_false_iff_ne]
    exact fun e => hslash (List.mem_of_getLast? e)

/-- The entry `name` of the directory at a location has a path one name longer. -/
theorem join_render (h : ∀ name ∈ location, IsComponent name) (name : String) :
    join (render location) name = render (location ++ [name]) := by
  rw [join, endsInSlash_render h]
  cases location with
  | nil => simp [render, Text.join, Text.glue]
  | cons n rest =>
    rw [← String.toList_inj, toList_render_concat (List.cons_ne_nil n rest)]
    simp

theorem locate_render (h : ∀ name ∈ location, IsComponent name) (cwd : String) :
    locate cwd (render location) = follow [] location := by
  rw [locate, isAbsolute_render, if_pos rfl, components_render h]

theorem normalize_render_eq_self_iff (h : ∀ name ∈ location, IsComponent name) (cwd : String) :
    normalize cwd (render location) = render location ↔ ∀ name ∈ location, IsPlain name := by
  constructor
  · intro heq
    have hlocation : location = locate cwd (render location) := by
      rw [← components_normalize, heq, components_render h]
    exact hlocation ▸ locate_isPlain cwd (render location)
  · intro hplain
    rw [normalize, locate_render h, follow_plain hplain, List.nil_append]

end TreeShell.Path

/-! ## Resolved paths

A path that resolves does so to its normalized form, at which there is a node. -/

namespace TreeShell.FileSystem

/-- There is a directory at the path. -/
def HasDirectory (fs : FileSystem) (path : String) : Prop :=
  ∃ children, fs.lookup path = some (.directory children)

theorem lookup_render (fs : FileSystem) {location : List String}
    (h : ∀ name ∈ location, Path.IsComponent name) :
    fs.lookup (Path.render location) = fs.root.descend? location := by
  rw [lookup, Path.components_render h]

theorem resolve_eq_ok_iff {fs : FileSystem} {cwd path resolved : String} :
    fs.resolve cwd path = .ok resolved ↔ resolved = Path.normalize cwd path ∧
      ∃ node, fs.lookup resolved = some node ∧
        (node.isFile && Path.endsInSlash path) = false := by
  unfold resolve
  constructor
  · intro h
    split at h
    · cases h
    · rename_i node hnode
      split at h
      · cases h
      · rename_i hslash
        obtain rfl := Except.ok.inj h
        exact ⟨rfl, node, hnode, by simpa using hslash⟩
  · rintro ⟨rfl, node, hnode, hslash⟩
    simp [hnode, hslash]

end TreeShell.FileSystem
