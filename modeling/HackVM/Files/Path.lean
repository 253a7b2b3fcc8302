import HackVM.Text.Pieces

/-! # Paths

A path is a text whose components are separated by slashes. The name of a file is the last component
that is neither empty nor a dot; it falls into a stem and an extension at its last dot, unless that dot
comes first.
-/

namespace HackVM.Path

/-- The components of a path, empty ones included. -/
def components (path : String) : List String :=
  (Text.pieces '/' path.toList).map String.ofList

/-- The most bytes that a path may have. -/
def maxBytes : Nat := 4095

/-- The most bytes that a name in a path may have. -/
def maxNameBytes : Nat := 255

/-- Whether a path starts at the root. -/
def isAbsolute (path : String) : Bool := path.toList.head? == some '/'

/-- Whether a component stays in the directory it is met in. -/
def isIdle (component : String) : Bool := component == "" || component == "."

/-- The name of the file at the end of a path. A step to the parent directory names no file. -/
def fileName? (path : String) : Option String :=
  match ((components path).filter fun component => !isIdle component).getLast? with
  | some ".." => none
  | name? => name?

/-- Split a file name into its stem and its extension. -/
def splitExtension (name : String) : String × Option String :=
  let (last, rest) := name.toList.reverse.span (· != '.')
  match rest with
  | [] | [_] => (name, none)
  | _ :: stem => (String.ofList stem.reverse, some (String.ofList last.reverse))

/-- The extension of the file that a path names. -/
def extension? (path : String) : Option String :=
  (fileName? path).bind fun name => (splitExtension name).2

/-- The stem of the file that a path names. -/
def stem? (path : String) : Option String :=
  (fileName? path).map fun name => (splitExtension name).1

/-- The path of a file in a directory. -/
def join (directory name : String) : String :=
  if directory.isEmpty || directory.toList.getLast? == some '/' then directory ++ name
  else directory ++ "/" ++ name

/-- The path up to and including its last slash, and what follows. -/
def splitLast (path : String) : String × String :=
  let (last, rest) := path.toList.reverse.span (· != '/')
  (String.ofList rest.reverse, String.ofList last.reverse)

/-- Give the file at the end of a path another extension. A stem of one dot would name the parent directory, which
takes none. -/
def withExtension (path extension : String) : String :=
  let (directory, name) := splitLast path
  match splitExtension name with
  | (".", some _) => directory ++ ".."
  | (stem, _) => directory ++ stem ++ "." ++ extension

/-- The path of a place, given by the names that lead from the root to it. -/
def ofNames (names : List String) : String := "/" ++ "/".intercalate names

end HackVM.Path
