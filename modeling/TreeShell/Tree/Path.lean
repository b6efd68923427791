import TreeShell.Text.Basic
import TreeShell.Tree.Node

/-! # Paths

A path is a text whose components are its non-empty pieces between slashes. A location is the
list of names that leads from the root to a node. Following a path from a location drops `.`,
takes the last name off for `..` and appends every other component; the root has no last name.
`normalize` does this on texts. -/

namespace TreeShell.Path

def components (path : String) : List String := (Text.split '/' path).filter (· != "")

def isAbsolute (path : String) : Bool := path.toList.head? == some '/'

/-- A path that ends in a slash can only mean a directory. -/
def endsInSlash (path : String) : Bool := path.toList.getLast? == some '/'

def step (location : List String) (component : String) : List String :=
  if component = "." then location
  else if component = ".." then location.dropLast
  else location ++ [component]

def follow (location components : List String) : List String := components.foldl step location

theorem follow_append (location cs ds : List String) :
    follow location (cs ++ ds) = follow (follow location cs) ds := by
  simp [follow]

/-- The location that `path` means in the working directory `cwd`. -/
def locate (cwd path : String) : List String :=
  if isAbsolute path then follow [] (components path)
  else follow [] (components cwd ++ components path)

/-- The text of a location: a slash, then its names with a slash between each two. -/
def render (location : List String) : String := "/" ++ Text.join "/" location

def normalize (cwd path : String) : String := render (locate cwd path)

/-- The path of the entry `name` in the directory `dir`. -/
def join (dir name : String) : String :=
  if endsInSlash dir then dir ++ name else dir ++ "/" ++ name

end TreeShell.Path

/-! ## Looking paths up

`lookup` takes the components of a path as names, one below the other, so a component `..`
is a name like any other. `resolve` normalizes first and then asks whether a node is there. -/

namespace TreeShell

inductive PathError where
  | notFound (path : String)
  | notADirectory (path : String)
  deriving DecidableEq, Repr

def PathError.message : PathError → String
  | .notFound path => "path not found: " ++ path
  | .notADirectory path => "not a directory: " ++ path

namespace FileSystem

def lookup (fs : FileSystem) (path : String) : Option Node :=
  fs.root.descend? (Path.components path)

/-- The normalized path of the node that `path` names; a path that ends in a slash names no
file. Errors carry the path as it was given. -/
def resolve (fs : FileSystem) (cwd path : String) : Except PathError String :=
  match fs.lookup (Path.normalize cwd path) with
  | none => .error (.notFound path)
  | some node =>
    if node.isFile && Path.endsInSlash path then .error (.notADirectory path)
    else .ok (Path.normalize cwd path)

end FileSystem

/-! ## Walking a tree

A walk stands on a node and knows the directories above it. Each component of a path moves it:
`.` stays, `..` goes to the directory above, the root being its own, and any other name goes to
the child of that name. Every step needs a directory to stand on. -/

/-- A node of a tree with the way to it: the directories above, nearest first, each with the
name that was taken in it. -/
structure Position where
  node : Node
  above : List (String × Node)

inductive Obstacle where
  | missing
  | notADirectory
  deriving DecidableEq, Repr

namespace Position

def ofRoot (root : Node) : Position := ⟨root, []⟩

/-- The names that lead from the root to the position. -/
def location (p : Position) : List String := (p.above.map Prod.fst).reverse

def move (p : Position) (component : String) : Except Obstacle Position :=
  match p.node with
  | .file _ => .error .notADirectory
  | .directory children =>
    if component = "." then .ok p
    else if component = ".." then
      match p.above with
      | [] => .ok p
      | (_, dir) :: above => .ok ⟨dir, above⟩
    else match Entries.get? component children with
      | none => .error .missing
      | some child => .ok ⟨child, (component, p.node) :: p.above⟩

def moves (p : Position) : List String → Except Obstacle Position
  | [] => .ok p
  | c :: cs =>
    match p.move c with
    | .ok q => q.moves cs
    | .error e => .error e

/-- Walks along `path`, from the root if it is absolute; if it ends in a slash the walk must
end on a directory. -/
def walk (p : Position) (path : String) : Except Obstacle Position :=
  let start := if Path.isAbsolute path then
      ofRoot ((p.above.getLast?.map Prod.snd).getD p.node)
    else p
  match start.moves (Path.components path) with
  | .error e => .error e
  | .ok q => if q.node.isFile && Path.endsInSlash path then .error .notADirectory else .ok q

end Position

end TreeShell
