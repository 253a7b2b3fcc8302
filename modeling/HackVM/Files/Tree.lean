import HackVM.Files.Path

/-! # File trees

A tree holds files and directories by their places, and knows the directory in which relative paths
start. Walking along a path needs a directory before every component, even before one that goes nowhere.
Before any walk a path is refused for a NUL in it or for its length; the length of a name counts only
once the walk asks for it.

A tree is made of plain files and directories with names in Unicode. Links, names in other encodings and
permissions are left out.
-/

namespace HackVM

/-- Why a path cannot be used. -/
inductive FileError where
  | notFound
  | notADirectory
  | isADirectory
  | invalidData
  | invalidPath
  | nameTooLong
deriving DecidableEq, Repr

/-- What stands at a place. -/
inductive FileNode where
  | file (bytes : ByteArray)
  | directory

/-- The names that lead from the root to a file or directory. -/
abbrev Place := List String

/-- Files and directories, and the working directory. -/
structure FileTree where
  nodes : List (Place × FileNode) := []
  here : Place := []

namespace FileTree

/-- What stands at a place. The root is always a directory. -/
def node? (tree : FileTree) (place : Place) : Option FileNode :=
  if place = [] then some .directory else tree.nodes.lookup place

/-- Put something at a place. -/
def put (tree : FileTree) (place : Place) (node : FileNode) : FileTree :=
  if (tree.nodes.lookup place).isSome then
    { tree with nodes := tree.nodes.map fun entry => if entry.1 = place then (place, node) else entry }
  else { tree with nodes := tree.nodes ++ [(place, node)] }

/-- What stands in the directory at a place, by name. -/
def children (tree : FileTree) (place : Place) : List (String × FileNode) :=
  tree.nodes.filterMap fun (child, node) =>
    match child.getLast? with
    | some name => if child.dropLast = place then some (name, node) else none
    | none => none

/-- Put something at a place, after directories wherever the way to it has nothing yet. -/
def install (tree : FileTree) (place : Place) (node : FileNode) : FileTree :=
  let parents := (List.range place.length).map place.take
  let tree := parents.foldl
    (fun tree parent => if (tree.node? parent).isSome then tree else tree.put parent .directory) tree
  tree.put place node

/-- Refuse a path that no file can have. -/
def checkPath (path : String) : Except FileError Unit :=
  if path.toList.contains '\x00' then .error .invalidPath
  else if Path.maxBytes < path.utf8ByteSize then .error .nameTooLong
  else .ok ()

/-- What a name in a directory stands for. -/
def child? (tree : FileTree) (place : Place) (name : String) : Except FileError (Option FileNode) :=
  if Path.maxNameBytes < name.utf8ByteSize then .error .nameTooLong
  else .ok (tree.node? (place ++ [name]))

/-- Follow components from a place. -/
def walk (tree : FileTree) (place : Place) : List String → Except FileError Place
  | [] => .ok place
  | component :: rest =>
    match tree.node? place with
    | some .directory =>
      if Path.isIdle component then tree.walk place rest
      else if component = ".." then tree.walk place.dropLast rest
      else
        match tree.child? place component with
        | .ok (some _) => tree.walk (place ++ [component]) rest
        | .ok none => .error .notFound
        | .error error => .error error
    | _ => .error .notADirectory

/-- Where a path starts. -/
def start (tree : FileTree) (path : String) : Place := if Path.isAbsolute path then [] else tree.here

/-- The place that a path leads to. -/
def resolve (tree : FileTree) (path : String) : Except FileError Place := do
  checkPath path
  tree.walk (tree.start path) (Path.components path)

/-- Whether a path leads to a directory. -/
def isDirectory (tree : FileTree) (path : String) : Bool :=
  match tree.resolve path with
  | .ok place =>
    match tree.node? place with
    | some .directory => true
    | _ => false
  | .error _ => false

/-- Whether a path leads to a file. -/
def isFile (tree : FileTree) (path : String) : Bool :=
  match tree.resolve path with
  | .ok place =>
    match tree.node? place with
    | some (.file _) => true
    | _ => false
  | .error _ => false

/-- The bytes of a file. -/
def readBytes (tree : FileTree) (path : String) : Except FileError ByteArray := do
  match tree.node? (← tree.resolve path) with
  | some (.file bytes) => return bytes
  | some .directory => throw .isADirectory
  | none => throw .notFound

/-- The text of a file in UTF-8. -/
def readText (tree : FileTree) (path : String) : Except FileError String := do
  match String.fromUTF8? (← tree.readBytes path) with
  | some text => return text
  | none => throw .invalidData

/-- The place of a file to be written. A path with a slash at its end means a directory. -/
def target (tree : FileTree) (path : String) : Except FileError Place := do
  checkPath path
  let names := (Path.components path).reverse.dropWhile (· == "")
  match names with
  | [] => throw .isADirectory
  | name :: parents =>
    let parent ← tree.walk (tree.start path) parents.reverse
    match tree.node? parent with
    | some .directory =>
      if names.length < (Path.components path).length || Path.isIdle name || name == ".." then
        throw .isADirectory
      else
        match ← tree.child? parent name with
        | some .directory => throw .isADirectory
        | _ => return parent ++ [name]
    | _ => throw .notADirectory

/-- Create a file with nothing in it, or empty the one that is there. Its place is returned as well. -/
def create (tree : FileTree) (path : String) : Except FileError (Place × FileTree) := do
  let place ← tree.target path
  return (place, tree.put place (.file .empty))

/-- The files that are new, or hold other bytes, compared with an earlier tree. -/
def changesSince (tree earlier : FileTree) : List (Place × ByteArray) :=
  tree.nodes.filterMap fun (place, node) =>
    match node, earlier.node? place with
    | .directory, _ => none
    | .file bytes, some (.file before) => if bytes.data = before.data then none else some (place, bytes)
    | .file bytes, _ => some (place, bytes)

end FileTree

end HackVM
