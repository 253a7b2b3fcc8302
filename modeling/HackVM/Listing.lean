import HackVM.Listing.Line

/-! # Numbered commands of a source text

A listing is the commands of a source text in order, each with the number of its line. Lines that
say nothing are skipped but counted. The first line that is not a command stops the reading.
-/

namespace HackVM

/-- A command and the number of the line it stands on, counted from one. -/
structure NumberedCommand where
  line : Nat
  command : Command
deriving DecidableEq, Repr

/-- The commands of a source text in order. -/
abbrev Listing := List NumberedCommand

/-- A line of a source text that is not a command. -/
structure ReadError where
  line : Nat
  fault : LineFault
deriving DecidableEq, Repr

/-- The error in words, with the number of the line. -/
def ReadError.message (error : ReadError) : String :=
  "line " ++ error.line.repr ++ ": " ++ error.fault.message

namespace Listing

/-- The lines of a text that say something, with their numbers. -/
def numberedContents (text : List Char) : List (Nat × List Char) :=
  ((Text.lines text).zipIdx 1).filterMap fun (line, number) =>
    let content := Text.content line
    if content.isEmpty then none else some (number, content)

/-- Read a numbered line. -/
def numberedCommand (line : Nat × List Char) : Except ReadError NumberedCommand :=
  match command line.2 with
  | .ok command => .ok ⟨line.1, command⟩
  | .error fault => .error ⟨line.1, fault⟩

/-- Read a source text. -/
def ofSource (source : String) : Except ReadError Listing :=
  (numberedContents source.toList).mapM numberedCommand

/-- Number commands that come from no text by their positions. -/
def ofCommands (commands : List Command) : Listing :=
  (commands.zipIdx 1).map fun (command, number) => ⟨number, command⟩

end Listing

end HackVM
