import HackVM.CommandLine.Run

/-! # The program

Reads the files that an invocation can see into a file tree, carries the invocation out on the tree, and
writes what has changed. Everything that is decided is decided by `Invocation.run`.
-/

namespace HackVM.Main

/-- What `--help` prints. -/
def usage : String :=
  "Usage: hack-vm [OPTIONS] <INPUT>\n\n" ++
  "Arguments:\n" ++
  "  <INPUT>  A .vm file, or a directory whose .vm files form one program\n\n" ++
  "Options:\n" ++
  "  -o, --output <OUTPUT>        Output assembly file\n" ++
  "      --bootstrap <BOOTSTRAP>  When to emit the bootstrap code: auto, always or never\n" ++
  "      --entry <ENTRY>          Function called by the bootstrap code\n" ++
  "      --no-comments            Leave the commands out of the output\n" ++
  "      --log-level <LOG_LEVEL>  Least level of the events to print\n" ++
  "  -h, --help                   Print help\n" ++
  "  -V, --version                Print version\n"

/-- What goes wrong in a command line that cannot be carried out. -/
def complaint : Stop → String
  | .unknownArgument => "unexpected argument"
  | .invalidValue => "missing or invalid value"
  | .tooManyValues => "unexpected value for an option"
  | .argumentConflict => "an option is given twice"
  | .missingInput => "no input is given"
  | .help | .version => ""

/-- Whether events of a level are printed under the level that the command line names. -/
def isPrinted (threshold : String) : Level → Bool
  | .warn => threshold ∈ ["trace", "debug", "info", "warn"]
  | .info => threshold ∈ ["trace", "debug", "info"]
  | .debug => threshold ∈ ["trace", "debug"]

/-- Copy what stands at a place into a tree, if there is anything. -/
def loadPlace (tree : FileTree) (place : Place) : IO FileTree := do
  let path := (← IO.currentDir) / Path.ofNames place
  if ← path.isDir then return tree.install place .directory
  else if ← path.pathExists then return tree.install place (.file (← IO.FS.readBinFile path))
  else return tree

/-- Copy everything that a path passes through into a tree, and the source files of the directory at
its end. -/
def loadPath (tree : FileTree) (path : String) : IO FileTree := do
  if (FileTree.checkPath path).toOption.isNone then return tree
  let mut tree := tree
  let mut place := tree.start path
  for component in Path.components path do
    if !Path.isIdle component then
      place := if component = ".." then place.dropLast else place ++ [component]
      tree ← loadPlace tree place
  if tree.isDirectory path then
    for entry in ← ((← IO.currentDir) / Path.ofNames place).readDir do
      if (Path.splitExtension entry.fileName).2 = some Invocation.sourceExtension then
        tree ← loadPlace tree (place ++ [entry.fileName])
  return tree

/-- The part of the files that an invocation can see. -/
def visibleFiles (invocation : Invocation) : IO FileTree := do
  let here := (Path.components (← IO.currentDir).toString).filter fun name => !name.isEmpty
  let tree := ({ here } : FileTree).install here .directory
  let tree ← loadPath tree invocation.input
  match invocation.output, Invocation.defaultOutput invocation.input { files := tree } with
  | some output, _ => loadPath tree output
  | none, .ok output _ => loadPath tree output
  | none, .error .. => return tree

/-- Carry out an invocation on the real files. -/
def perform (invocation : Invocation) : IO UInt32 := do
  let tree ← visibleFiles invocation
  let report := invocation.run tree
  for event in report.log do
    if isPrinted invocation.logLevel event.level then
      IO.eprintln (event.level.name ++ " " ++ event.message)
  match report.result with
  | .error error =>
    IO.eprintln ("Error: " ++ error.message)
    return 1
  | .ok _ =>
    for (place, bytes) in report.files.changesSince tree do
      IO.FS.writeBinFile ((← IO.currentDir) / Path.ofNames place) bytes
    return 0

end HackVM.Main

open HackVM in
/-- Turn a program for the stack machine into assembly. -/
def main (words : List String) : IO UInt32 := do
  match Invocation.ofWords words with
  | .ok invocation => Main.perform invocation
  | .error stop =>
    match stop with
    | .help => IO.print Main.usage
    | .version => IO.println "hack-vm 0.1.0"
    | _ => IO.eprint ("error: " ++ Main.complaint stop ++ "\n\n" ++ Main.usage)
    return stop.exitCode.toUInt32
