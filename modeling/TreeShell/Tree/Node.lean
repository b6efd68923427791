/-! # Trees of files and directories

A node is a file that holds a text or a directory of named children in order. A file system
is one node, its root. -/

/-! ## Named entries in order

A list of named values in which the order of the names matters. Writing a name that is there
already keeps its position; a new name goes to the end. -/

namespace TreeShell.Entries

variable {α : Type}

def get? (name : String) : List (String × α) → Option α
  | [] => none
  | (n, a) :: rest => if n = name then some a else get? name rest

def put (name : String) (value : α) : List (String × α) → List (String × α)
  | [] => [(name, value)]
  | (n, a) :: rest => if n = name then (n, value) :: rest else (n, a) :: put name value rest

def names (entries : List (String × α)) : List String := entries.map Prod.fst

/-- The entries written one after the other: of those with one name the last value stays, where
the first one stood. -/
def ofList (writes : List (String × α)) : List (String × α) :=
  writes.foldl (fun entries write => put write.1 write.2 entries) []

@[simp] theorem get?_put_self (name : String) (value : α) (entries : List (String × α)) :
    get? name (put name value entries) = some value := by
  induction entries with
  | nil => simp [put, get?]
  | cons e rest ih =>
    obtain ⟨n, a⟩ := e
    by_cases h : n = name <;> simp [put, get?, h, ih]

theorem get?_put_of_ne {name other : String} (h : other ≠ name) (value : α)
    (entries : List (String × α)) : get? other (put name value entries) = get? other entries := by
  induction entries with
  | nil => simp [put, get?, Ne.symm h]
  | cons e rest ih =>
    obtain ⟨n, a⟩ := e
    by_cases hn : n = name
    · simp [put, get?, hn, Ne.symm h]
    · simp [put, get?, hn, ih]

theorem names_put (name : String) (value : α) (entries : List (String × α)) :
    names (put name value entries) =
      if name ∈ names entries then names entries else names entries ++ [name] := by
  induction entries with
  | nil => simp [put, names]
  | cons e rest ih =>
    obtain ⟨n, a⟩ := e
    simp only [names] at ih
    by_cases hn : n = name
    · simp [put, names, hn]
    · simp only [put, names, hn, if_false, List.map_cons, ih, List.mem_cons, Ne.symm hn, false_or]
      split <;> simp_all

end TreeShell.Entries

/-! ## Nodes -/

namespace TreeShell

inductive Node where
  | file (content : String)
  | directory (children : List (String × Node))
  deriving Inhabited, Repr

namespace Node

def isFile : Node → Bool
  | .file _ => true
  | .directory _ => false

def isDirectory : Node → Bool
  | .file _ => false
  | .directory _ => true

def content? : Node → Option String
  | .file content => some content
  | .directory _ => none

def children? : Node → Option (List (String × Node))
  | .file _ => none
  | .directory children => some children

def child? (name : String) : Node → Option Node
  | .file _ => none
  | .directory children => Entries.get? name children

/-- The node that a sequence of child names leads to. -/
def descend? : Node → List String → Option Node
  | node, [] => some node
  | node, name :: names => (node.child? name).bind (descend? · names)

theorem descend?_append (node : Node) (above below : List String) :
    node.descend? (above ++ below) = (node.descend? above).bind (descend? · below) := by
  induction above generalizing node with
  | nil => rfl
  | cons name above ih =>
    cases hchild : node.child? name with
    | none => simp [descend?, hchild]
    | some child => simp [descend?, hchild, ih]

mutual

def decEq : (a b : Node) → Decidable (a = b)
  | .file a, .file b => decidable_of_iff (a = b) (by simp)
  | .directory a, .directory b =>
    match decEqChildren a b with
    | isTrue h => isTrue (by rw [h])
    | isFalse h => isFalse (fun e => h (by injection e))
  | .file _, .directory _ => isFalse (by simp)
  | .directory _, .file _ => isFalse (by simp)

def decEqChildren : (a b : List (String × Node)) → Decidable (a = b)
  | [], [] => isTrue rfl
  | [], _ :: _ => isFalse (by simp)
  | _ :: _, [] => isFalse (by simp)
  | (m, a) :: as, (n, b) :: bs =>
    if hn : m = n then
      match decEq a b with
      | isFalse h => isFalse (by simp [h])
      | isTrue ha =>
        match decEqChildren as bs with
        | isFalse h => isFalse (by simp [h])
        | isTrue has => isTrue (by rw [hn, ha, has])
    else isFalse (by simp [hn])

end

instance : DecidableEq Node := decEq

end Node

structure FileSystem where
  root : Node
  deriving DecidableEq, Inhabited, Repr

namespace FileSystem

/-- The file system whose root has no children. -/
def empty : FileSystem := ⟨.directory []⟩

end FileSystem

end TreeShell

/-! ## The tree a session starts from -/

namespace TreeShell.FileSystem

/-- The home directory of a user with a project, two documents and a welcome text. -/
def seed : FileSystem :=
  ⟨.directory [("home", .directory [("user", .directory [
    ("projects", .directory [("echo-shell", .directory [
      ("README.md", .file "# Echo Shell\nA terminal emulator built with Next.js and AI."),
      ("package.json",
        .file "\x7b \"name\": \"echo-shell\", \"version\": \"1.0.0\" \x7d")])]),
    ("documents", .directory [
      ("notes.txt", .file "Remember to buy milk."),
      ("plan.md", .file "1. Build terminal\n2. Add AI\n3. ???\n4. Profit")]),
    ("welcome.txt",
      .file "Welcome to Echo Shell! Type `help` to see available commands.")])])]⟩

end TreeShell.FileSystem
