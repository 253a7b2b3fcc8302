import HackVM.CommandLine.Invocation
import HackVM.Files.Tree

/-! # Carrying out an invocation

The input is a source file, or a directory whose source files form one program. The files are read and
added one after another; only when all of them have code is the output created and written. Files change in
place as the run goes on, and a failure takes nothing back.

Every step that can fail has an exit of its own. Three of them are for files beyond the trees here: a directory
that is found can also be listed and resolved, and a file that has been read has a name.
-/

namespace HackVM

/-- Why a run has no output. -/
inductive RunError where
  | unit (error : UnitError)
  | unlisted (path : String) (cause : FileError)
  | unreadable (path : String) (cause : FileError)
  | unnamedUnit (path : String)
  | noSources (path : String)
  | unresolved (path : String) (cause : FileError)
  | unnamedOutput (path : String)
  | unwritable (path : String) (cause : FileError)
deriving DecidableEq, Repr

namespace RunError

/-- The failure in words. -/
def message : RunError → String
  | unit error => error.message
  | unlisted path _ => "Failed to read " ++ path
  | unreadable path _ => "Error while reading file: " ++ path
  | unnamedUnit path => "Invalid file name " ++ path
  | noSources path => "no .vm files in " ++ path
  | unresolved path _ => "Failed to resolve " ++ path
  | unnamedOutput path => "Cannot name output for " ++ path
  | unwritable path _ => "Failed to create " ++ path

/-- The file error behind the failure. -/
def cause? : RunError → Option FileError
  | unlisted _ cause | unreadable _ cause | unresolved _ cause | unwritable _ cause => some cause
  | unit _ | unnamedUnit _ | noSources _ | unnamedOutput _ => none

end RunError

/-- What a run works on: the events reported so far, and the files as they stand. -/
structure Session where
  log : List Event := []
  files : FileTree

/-- Work that reports events and changes files, and may fail. What was done before a failure stays done. -/
abbrev Work := EStateM RunError Session

namespace Work

/-- Report an event. -/
def report (event : Event) : Work Unit := modify fun session => { session with log := session.log ++ [event] }

/-- A failing operation as a failure of the run. -/
def lift {ε α : Type} (explain : ε → RunError) : Except ε α → Work α
  | .ok value => return value
  | .error error => throw (explain error)

/-- The files as they stand. -/
def files : Work FileTree := return (← get).files

/-- Create the file that a path names, or empty it, and give its place. -/
def createFile (path : String) : Work Place := do
  let (place, later) ← lift (.unwritable path) ((← files).create path)
  modify fun session => { session with files := later }
  return place

/-- Write the bytes of a file that has been created at a place. -/
def fillFile (place : Place) (bytes : ByteArray) : Work Unit :=
  modify fun session => { session with files := session.files.put place (.file bytes) }

end Work

namespace Invocation

open Work

/-- The extension of source files. -/
def sourceExtension : String := "vm"

/-- The paths of the source files in a directory, in the order of their names. A file counts only if its path
reaches it. -/
def sourcePaths (tree : FileTree) (directory : String) (place : Place) : List String :=
  let names := (tree.children place).map (·.1)
  let sorted := names.mergeSort fun left right => (compare left right).isLE
  (sorted.map (Path.join directory)).filter fun path =>
    tree.isFile path && Path.extension? path = some sourceExtension

/-- The paths of the source files that an input stands for. -/
def sources (input : String) : Work (List String) := do
  let tree ← files
  if tree.isDirectory input then
    let place ← lift (.unlisted input) (tree.resolve input)
    let paths := sourcePaths tree input place
    if paths.isEmpty then throw (.noSources input)
    return paths
  else
    if Path.extension? input ≠ some sourceExtension then report (.unusualExtension input)
    return [input]

/-- Read the unit in a file. -/
def readUnit (path : String) : Work SourceUnit := do
  let text ← lift (.unreadable path) ((← files).readText path)
  match Path.stem? path with
  | none => throw (.unnamedUnit path)
  | some name =>
    let unit ← lift .unit (SourceUnit.ofSource name text)
    report (.parsed path unit.listing.length)
    return unit

/-- Append the unit in a file to a draft. -/
def addFile (draft : Draft) (path : String) : Work Draft := do
  let unit ← readUnit path
  let (draft, event) ← lift .unit (draft.add unit)
  report event
  return draft

/-- Build the program that an input stands for. -/
def build (invocation : Invocation) : Work (List Line) := do
  let paths ← sources invocation.input
  let draft ← paths.foldlM addFile (Draft.empty invocation.buildOptions)
  let (lines, events) := draft.finish
  events.forM report
  return lines

/-- The path of the output if none is given: beside a source file, and inside a directory under the
directory's own name. -/
def defaultOutput (input : String) : Work String := do
  let tree ← files
  if tree.isDirectory input then
    let place ← lift (.unresolved input) (tree.resolve input)
    let directory := Path.ofNames place
    match place.getLast? with
    | some name => return Path.join directory (name ++ ".asm")
    | none => throw (.unnamedOutput directory)
  else return Path.withExtension input "asm"

/-- The path of the output. -/
def outputPath (invocation : Invocation) : Work String :=
  match invocation.output with
  | some path => return path
  | none => defaultOutput invocation.input

/-- The bytes of a file with given lines, each of which ends with a line feed. -/
def fileBytes (lines : List Line) : ByteArray :=
  (String.join (lines.map fun line => line.render ++ "\n")).toUTF8

/-- Build the program and write it, giving the path of the output. -/
def carryOut (invocation : Invocation) : Work String := do
  let lines ← build invocation
  let path ← outputPath invocation
  let place ← createFile path
  fillFile place (fileBytes lines)
  report (.wrote lines.length path)
  return path

/-- What a run did: its events, the path of the output or the failure, and the files afterwards. -/
structure Report where
  log : List Event
  result : Except RunError String
  files : FileTree

/-- Carry out an invocation. -/
def run (invocation : Invocation) (tree : FileTree) : Report :=
  match carryOut invocation { files := tree } with
  | .ok path session => ⟨session.log, .ok path, session.files⟩
  | .error error session => ⟨session.log, .error error, session.files⟩

end Invocation

end HackVM
