import TreeShell.Json.Format
import TreeShell.Json.Value
import TreeShell.Tree.Node
import TreeShell.Tree.Path

/-! # Edits of a tree

The ways in which a file system comes about. An edit that fails to read a text keeps the tree;
an insertion leaves what `insert` leaves. -/

/-! ## Building trees

The names in a tree are non-empty and hold no slash, so that a path can name every entry.
`insert` checks the new node first, then walks down from the root, makes the directories that
are missing on the way, and stops at a file; whatever it has made by then is in the tree it
returns. -/

namespace TreeShell

inductive TreeError where
  | rootNotDirectory
  | invalidName (name : String)
  | notADirectory (path : String)
  | unreadable
  deriving DecidableEq, Repr

def TreeError.message : TreeError → String
  | .rootNotDirectory => "root node must be a directory"
  | .invalidName name =>
    "invalid entry name '" ++ name ++ "': names must be non-empty and contain no '/'"
  | .notADirectory path => "ENOTDIR: not a directory, insert '" ++ path ++ "'"
  | .unreadable => "invalid file system json: the text describes no tree"

namespace Node

def isName (s : String) : Bool := s != "" && !s.toList.contains '/'

mutual

/-- The first invalid name, a directory's entries being taken in order and all that is below an
entry before the next one. -/
def badName? : Node → Option String
  | .file _ => none
  | .directory children => badNameIn? children

def badNameIn? : List (String × Node) → Option String
  | [] => none
  | (name, child) :: rest =>
    if isName name then child.badName? <|> badNameIn? rest else some name

end

/-- What became of a walk that puts a node in place: it got there, or it met a file and
`walked` are the names it had taken, the one it could not find in the file included. -/
inductive Placement where
  | placed
  | blocked (walked : List String)
  deriving DecidableEq, Repr

def Placement.below (name : String) : Placement → Placement
  | .placed => .placed
  | .blocked walked => .blocked (name :: walked)

/-- Puts `new` at the end of the names, below the given node. -/
def place (new : Node) : List String → Node → Placement × Node
  | [], _ => (.placed, new)
  | name :: _, .file content => (.blocked [name], .file content)
  | name :: names, .directory children =>
    let child := (Entries.get? name children).getD (.directory [])
    let (outcome, child) := place new names child
    (outcome.below name, .directory (Entries.put name child children))

end Node

namespace FileSystem

/-- The file system with the given root, if that is a directory whose names are all valid. -/
def ofNode (root : Node) : Except TreeError FileSystem :=
  if root.isFile then .error .rootNotDirectory
  else match root.badName? with
    | some name => .error (.invalidName name)
    | none => .ok ⟨root⟩

/-- Puts `node` at `path`, which is taken from the root, and returns the tree as it is then. -/
def insert (path : String) (node : Node) (fs : FileSystem) : Except TreeError Unit × FileSystem :=
  match node.badName? with
  | some name => (.error (.invalidName name), fs)
  | none =>
    let names := Path.components path
    if names.isEmpty then
      if node.isFile then (.error .rootNotDirectory, fs) else (.ok (), ⟨node⟩)
    else
      match Node.place node names fs.root with
      | (.placed, root) => (.ok (), ⟨root⟩)
      | (.blocked walked, root) =>
        let reached := if walked.length < names.length then Path.render walked else path
        (.error (.notADirectory reached), ⟨root⟩)

def insertFile (path content : String) (fs : FileSystem) : Except TreeError Unit × FileSystem :=
  fs.insert path (.file content)

def insertDirectory (path : String) (fs : FileSystem) : Except TreeError Unit × FileSystem :=
  fs.insert path (.directory [])

end FileSystem

/-! ## Trees as JSON

A node is written as an object with its kind under `type` and a file's `content` or a
directory's `children`. It is read from such an object in any order of the keys, from an array
of the kind and what belongs to it, and a directory may lack its children. Of children with one
name the last is kept, where the first one stood, but every one of them must be a node. The
text may nest 127 brackets deep, and all its strings and numbers must be exact, also where
nobody looks at them. -/

open Json (Value Doc)

namespace Node

mutual

def doc : Node → Doc
  | .file content => .record [("type", .text "file"), ("content", .text content)]
  | .directory children => .record [("type", .text "directory"), ("children", .record (docs children))]

def docs : List (String × Node) → List (String × Doc)
  | [] => []
  | (name, child) :: rest => (name, child.doc) :: docs rest

end

inductive Kind where
  | file
  | directory
  deriving DecidableEq, Repr

/-- Below the root a kind may also be given by its number. -/
def kind? : Value → Option Kind
  | .string (some "file") => some .file
  | .string (some "directory") => some .directory
  | v =>
    match v.natural? with
    | some 0 => some .file
    | some 1 => some .directory
    | _ => none

/-- The value of the only member called `name`. -/
def only? (name : String) (members : List (Option String × Value)) : Option Value :=
  match members.filter (·.1 == some name) with
  | [(_, v)] => some v
  | _ => none

mutual

def ofValue? : Value → Option Node
  | .object members =>
    match (only? "type" members).bind kind? with
    | some .file => ((only? "content" members).bind Value.text?).map .file
    | some .directory => (childrenIn? members).map (.directory <| Entries.ofList ·)
    | none => none
  | .array [tag] =>
    if kind? tag = some .directory then some (.directory []) else none
  | .array [tag, .string (some content)] =>
    if kind? tag = some .file then some (.file content) else none
  | .array [tag, .object entries] =>
    if kind? tag = some .directory then
      (entries? entries).map (.directory <| Entries.ofList ·)
    else none
  | _ => none

/-- The entries of the member `children`, which may be missing but not repeated. -/
def childrenIn? : List (Option String × Value) → Option (List (String × Node))
  | [] => some []
  | (name, v) :: rest =>
    if name = some "children" then
      if rest.any (·.1 == some "children") then none
      else match v with
        | .object entries => entries? entries
        | _ => none
    else childrenIn? rest

def entries? : List (Option String × Value) → Option (List (String × Node))
  | [] => some []
  | (name, v) :: rest =>
    match name, ofValue? v, entries? rest with
    | some name, some node, some nodes => some ((name, node) :: nodes)
    | _, _, _ => none

end

/-- At the root the kind must be a string. -/
def namesKind : Value → Bool
  | .object members => ((only? "type" members).bind Value.text?).isSome
  | .array (tag :: _) => tag.text?.isSome
  | _ => false

/-- How deep the brackets of a tree's text may nest. -/
def maxDepth : Nat := 127

def read? (text : String) : Option Node :=
  match Json.parse text with
  | none => none
  | some v => if v.depth ≤ maxDepth && v.isExact && namesKind v then ofValue? v else none

def toJson (node : Node) : String := node.doc.compact

end Node

namespace FileSystem

def ofJson (text : String) : Except TreeError FileSystem :=
  match Node.read? text with
  | none => .error .unreadable
  | some root => ofNode root

def toJson (fs : FileSystem) : String := fs.root.doc.pretty

end FileSystem

/-! ## Edits -/

inductive Edit where
  | clear
  | seed
  | load (text : String)
  | insert (path : String) (node : Node)
  | insertFile (path content : String)
  | insertDirectory (path : String)

def Edit.apply : Edit → FileSystem → Except TreeError Unit × FileSystem
  | .clear, _ => (.ok (), .empty)
  | .seed, _ => (.ok (), .seed)
  | .load text, fs =>
    match FileSystem.ofJson text with
    | .ok loaded => (.ok (), loaded)
    | .error e => (.error e, fs)
  | .insert path node, fs => fs.insert path node
  | .insertFile path content, fs => fs.insertFile path content
  | .insertDirectory path, fs => fs.insertDirectory path

/-- The tree after all edits, whether they succeed or not. -/
def FileSystem.edited (fs : FileSystem) (edits : List Edit) : FileSystem :=
  edits.foldl (fun fs edit => (edit.apply fs).2) fs

end TreeShell
