import TreeShell.Proofs.Path.Canonical
import TreeShell.Proofs.Tree.Shape

/-! # The normal form of paths

Normalizing takes every path to a canonical one and leaves exactly the canonical ones as they are,
so to normalize once more changes nothing, wherever that is done. A path that resolves in a tree
does so to such a path, and this resolves to itself. -/

/-! ## Joined paths

Joining puts the components of one path behind those of the other, whether a slash has to be added
between them or not. So to follow a joined path is to follow the first path and then, from where
that leads, the second. -/

namespace TreeShell.Path

theorem components_append_slash (above below : String) :
    components (above ++ "/" ++ below) = components above ++ components below := by
  have hslash : "/".toList = ['/'] := by simp
  simp only [components_eq, String.toList_append, hslash, List.append_assoc,
    List.singleton_append]
  rw [Text.pieces_append_cons (by simp), List.filter_append, List.map_append]

theorem exists_of_endsInSlash {path : String} (h : endsInSlash path = true) :
    ∃ above, path = above ++ "/" := by
  have hlast : path.toList.getLast? = some '/' := by simpa [endsInSlash] using h
  obtain ⟨above, habove⟩ := List.getLast?_eq_some_iff.1 hlast
  refine ⟨String.ofList above, ?_⟩
  rw [← String.toList_inj, habove]
  simp

theorem components_join (dir name : String) :
    components (join dir name) = components dir ++ components name := by
  unfold join
  by_cases hslash : endsInSlash dir = true
  · obtain ⟨above, rfl⟩ := exists_of_endsInSlash hslash
    have hdir : components (above ++ "/") = components above := by
      have hempty : components "" = [] := by decide
      simpa [hempty] using components_append_slash above ""
    rw [if_pos hslash, hdir, components_append_slash]
  · rw [if_neg hslash, components_append_slash]

theorem isAbsolute_append {path : String} (h : path ≠ "") (rest : String) :
    isAbsolute (path ++ rest) = isAbsolute path := by
  obtain ⟨c, cs, hpath⟩ : ∃ c cs, path.toList = c :: cs :=
    List.exists_cons_of_ne_nil (by simpa using h)
  simp [isAbsolute, hpath]

theorem isAbsolute_join {dir : String} (h : dir ≠ "") (name : String) :
    isAbsolute (join dir name) = isAbsolute dir := by
  unfold join
  split
  · exact isAbsolute_append h name
  · rw [String.append_assoc, isAbsolute_append h]

theorem locate_join {p : String} (hp : p ≠ "") (q cwd : String) :
    locate cwd (join p q) = follow (locate cwd p) (components q) := by
  by_cases habsolute : isAbsolute p = true
  · have hjoin : isAbsolute (join p q) = true := by rw [isAbsolute_join hp, habsolute]
    rw [locate_of_isAbsolute hjoin, locate_of_isAbsolute habsolute, components_join, follow_append]
  · rw [Bool.not_eq_true] at habsolute
    have hjoin : isAbsolute (join p q) = false := by rw [isAbsolute_join hp, habsolute]
    rw [locate_of_relative hjoin, locate_of_relative habsolute, components_join, follow_append]

theorem locate_normalize {q : String} (hq : isAbsolute q = false) (cwd p : String) :
    locate (normalize cwd p) q = follow (locate cwd p) (components q) := by
  rw [locate_of_relative hq, components_normalize, follow_plain (locate_isPlain cwd p),
    List.nil_append]

/-- A joined path leads where its second part leads from where its first part leads. -/
theorem normalize_join {p q : String} (hp : p ≠ "") (hq : isAbsolute q = false) (cwd : String) :
    normalize cwd (join p q) = normalize (normalize cwd p) q := by
  rw [normalize, locate_join hp, ← locate_normalize hq]
  rfl

end TreeShell.Path

/-! ## Normal forms -/

namespace TreeShell

namespace Path

theorem normalize_eq_self_iff {cwd path : String} :
    normalize cwd path = path ↔ IsCanonical path := by
  constructor
  · intro hself
    rw [← hself]
    exact isCanonical_normalize cwd path
  · rintro ⟨location, hplain, rfl⟩
    exact (normalize_render_eq_self_iff (fun name hname => (hplain name hname).1) cwd).2 hplain

theorem normalize_normalize (c cwd path : String) :
    normalize c (normalize cwd path) = normalize cwd path :=
  normalize_eq_self_iff.2 (isCanonical_normalize cwd path)

theorem normalize_of_isAbsolute {path : String} (h : isAbsolute path = true) (c cwd : String) :
    normalize c path = normalize cwd path := by
  rw [normalize, normalize, locate_of_isAbsolute h, locate_of_isAbsolute h]

/-- Only the canonical path of the root ends in a slash. -/
theorem components_of_endsInSlash {path : String} (h : IsCanonical path)
    (hslash : endsInSlash path = true) : components path = [] := by
  obtain ⟨hplain, hpath⟩ := components_of_isCanonical h
  rw [hpath, endsInSlash_render fun name hname => (hplain name hname).1] at hslash
  exact List.isEmpty_iff.1 hslash

end Path

namespace FileSystem

/-- In a tree whose root is a directory, what a path resolves to resolves to itself. -/
theorem resolve_of_resolve {fs : FileSystem} (hroot : fs.root.isDirectory = true)
    {cwd path resolved : String} (h : fs.resolve cwd path = .ok resolved) (c : String) :
    fs.resolve c resolved = .ok resolved := by
  obtain ⟨rfl, node, hnode, -⟩ := resolve_eq_ok_iff.1 h
  refine resolve_eq_ok_iff.2 ⟨(Path.normalize_normalize c cwd path).symm, node, hnode, ?_⟩
  by_cases hslash : Path.endsInSlash (Path.normalize cwd path) = true
  · have hnames := Path.components_of_endsInSlash (Path.isCanonical_normalize cwd path) hslash
    rw [lookup, hnames] at hnode
    obtain rfl : fs.root = node := Option.some.inj hnode
    rw [Node.isFile_of_isDirectory hroot, Bool.false_and]
  · rw [Bool.not_eq_true] at hslash
    rw [hslash, Bool.and_false]

/-- Normalizing gives the canonical form of a path, in every directory and for every text, and in a
tree that has been built resolved paths keep to it. -/
theorem normalize_canonical_form (cwd path : String) :
    Path.IsCanonical (Path.normalize cwd path) ∧
      (Path.normalize cwd path = path ↔ Path.IsCanonical path) ∧
      (∀ c, Path.normalize c (Path.normalize cwd path) = Path.normalize cwd path) ∧
      (Path.isAbsolute path = true → ∀ c, Path.normalize c path = Path.normalize cwd path) ∧
      ∀ (edits : List Edit) (resolved : String),
        (empty.edited edits).resolve cwd path = .ok resolved →
          ∀ c, (empty.edited edits).resolve c resolved = .ok resolved :=
  ⟨Path.isCanonical_normalize cwd path, Path.normalize_eq_self_iff,
    fun c => Path.normalize_normalize c cwd path,
    fun h c => Path.normalize_of_isAbsolute h c cwd,
    fun edits _ h => resolve_of_resolve (isDirectory_edited edits) h⟩

/-- Steps above the root and repeated slashes go away, and three dots are a name. -/
theorem normalize_canonical_form_dots :
    Path.IsCanonical "/.../b" ∧ (∀ c, Path.normalize c "/.../b" = "/.../b") ∧
      (Path.isAbsolute "/./..//...//b/" = true ∧
        ∀ c, Path.normalize c "/./..//...//b/" = "/.../b") ∧
      (empty.edited [.insertFile "/.../b" "x"]).resolve "to//./a" "../../..//.../b" = .ok "/.../b" ∧
        ∀ c, (empty.edited [.insertFile "/.../b" "x"]).resolve c "/.../b" = .ok "/.../b" := by
  have hrelative : Path.normalize "to//./a" "../../..//.../b" = "/.../b" := by decide
  have habsolute : Path.normalize "to//./a" "/./..//...//b/" = "/.../b" := by decide
  have hresolve : (empty.edited [.insertFile "/.../b" "x"]).resolve "to//./a" "../../..//.../b" =
      .ok "/.../b" := rfl
  obtain ⟨hcanonical, -, hself, -, hresolved⟩ :=
    normalize_canonical_form "to//./a" "../../..//.../b"
  rw [hrelative] at hcanonical hself
  refine ⟨hcanonical, hself, ⟨by decide, fun c => ?_⟩, hresolve, hresolved _ _ hresolve⟩
  obtain ⟨-, -, -, hanywhere, -⟩ := normalize_canonical_form "to//./a" "/./..//...//b/"
  rw [hanywhere (by decide) c, habsolute]

end FileSystem

end TreeShell
