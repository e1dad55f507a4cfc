import Conformance.Disk.Path

/-!
# Files and folders

A `Disk` is a tree of folders with a place in it that relative paths start from. The entries
of a folder are kept in the order of their names, and a walk lists the files below a folder
in that order, depth first, each under the path that leads to it from where the walk began.

A path is followed part by part. Every part but the last has to lead to a folder, and two
dots lead back up; so different paths may lead to one place (`Disk.resolve?`).
-/

namespace Conformance

/-- What a file holds. -/
inductive Contents where
  | text (text : String)
  | bytes (bytes : List UInt8)
  deriving DecidableEq, Repr, Inhabited

namespace Contents

/-- The bytes of a file. -/
def toBytes : Contents → List UInt8
  | .text t => t.toUTF8.toList
  | .bytes b => b

/-- The text of a file, if its bytes are well-formed UTF-8. -/
def text? : Contents → Option String
  | .text t => some t
  | .bytes b => String.fromUTF8? b.toByteArray

end Contents

inductive Node where
  | file (contents : Contents)
  | folder (entries : List (String × Node))
  deriving Repr, Inhabited

namespace Node

def isFolder : Node → Bool
  | folder _ => true
  | file _ => false

/-- What a file holds. -/
def contents? : Node → Option Contents
  | file contents => some contents
  | folder _ => none

/-- The entry of a folder with a given name. -/
def child? (name : String) : Node → Option Node
  | folder entries => entries.lookup name
  | file _ => none

/-- What some names, one after the other, lead to. -/
def find? : List String → Node → Option Node
  | [], node => some node
  | name :: names, node => (node.child? name).bind (find? names)

/-- Some entries with one more; it replaces one of the same name. -/
def insertEntry (name : String) (node : Node) :
    List (String × Node) → List (String × Node)
  | [] => [(name, node)]
  | (other, found) :: entries =>
    if name = other then (name, node) :: entries
    else if name < other then (name, node) :: (other, found) :: entries
    else (other, found) :: insertEntry name node entries

/-- The entries of a folder; a file has none. -/
def entries : Node → List (String × Node)
  | folder entries => entries
  | file _ => []

/-- The tree with something put where some names lead to. Folders on the way are made. -/
def put (new : Node) : List String → Node → Node
  | [], _ => new
  | name :: names, node =>
    folder (insertEntry name (put new names ((node.child? name).getD (folder []))) node.entries)

/-- The tree without what some names lead to. -/
def erase : List String → Node → Node
  | [], node => node
  | [name], node => folder (node.entries.filter (·.1 ≠ name))
  | name :: names, node =>
    match node.child? name with
    | none => node
    | some child => folder (insertEntry name (erase names child) node.entries)

mutual

/-- The files of a tree in order, each with its path when the tree is at a given one. -/
def walk (path : String) : Node → List (String × Contents)
  | file contents => [(path, contents)]
  | folder entries => walkEntries path entries

def walkEntries (path : String) : List (String × Node) → List (String × Contents)
  | [] => []
  | (name, node) :: entries => node.walk (Path.join path name) ++ walkEntries path entries

end

end Node

/-- A tree of folders and the place in it that relative paths start from. -/
structure Disk where
  root : Node
  /-- The names that lead from the root to that place. -/
  here : List String
  deriving Repr, Inhabited

namespace Disk

/-- Where one more part of a path leads from a place. -/
def follow (root : Node) (place : List String) (part : String) : Option (List String) :=
  if ((root.find? place).map Node.isFolder).getD false then
    if Path.isFiller part then some place
    else if part = ".." then some place.dropLast
    else some (place ++ [part])
  else none

/-- The names that lead from the root to where a path leads. -/
def resolve? (disk : Disk) (path : String) : Option (List String) := do
  if path.isEmpty then none
  let start := if Path.isAbsolute path then [] else disk.here
  let place ← (Text.split '/' path).foldlM (follow disk.root) start
  if (disk.root.find? place).isSome then some place else none

/-- What a path leads to. -/
def find? (disk : Disk) (path : String) : Option Node :=
  (disk.resolve? path).bind fun place => disk.root.find? place

/-- Whether a path leads anywhere. -/
def contains (disk : Disk) (path : String) : Bool := (disk.find? path).isSome

/-- What the file holds that a path leads to. -/
def contents? (disk : Disk) (path : String) : Option Contents :=
  (disk.find? path).bind Node.contents?

/-- The shortest absolute path to where a path leads. -/
def canonical? (disk : Disk) (path : String) : Option String :=
  (disk.resolve? path).map fun place => "/" ++ "/".intercalate place

/-- The files at or below a path. -/
def walk? (disk : Disk) (path : String) : Option (List (String × Contents)) :=
  (disk.find? path).map (Node.walk path)

/-- The files of a disk that another disk does not have, each with its absolute path. -/
def changesFrom (disk before : Disk) : List (String × Contents) :=
  let old := before.root.walk "/"
  (disk.root.walk "/").filter fun (path, contents) => old.lookup path ≠ some contents

/-- Writes a text to the file that a path leads to. -/
def write? (disk : Disk) (path text : String) : Option Disk := do
  let place ← disk.resolve? path
  match ← disk.root.find? place with
  | .file _ => some { disk with root := .put (.file (.text text)) place disk.root }
  | .folder _ => none

end Disk

end Conformance
