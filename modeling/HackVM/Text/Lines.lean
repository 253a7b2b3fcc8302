import HackVM.Text.Blank
import HackVM.Text.Pieces

/-! # Lines and comments

A text is cut into lines at line feeds; a carriage return right before a line feed belongs to the
line end. A comment runs from the first `//` of a line to its end.
-/

namespace HackVM.Text

/-- A line without a carriage return at its end. -/
def dropReturn (line : List Char) : List Char :=
  if line.getLast? = some '\r' then line.dropLast else line

/-- The lines of a text, without their ends. What follows the last line feed ends with the text, so it
keeps a carriage return. -/
def lines (text : List Char) : List (List Char) :=
  let pieces := pieces '\n' text
  pieces.dropLast.map dropReturn ++ pieces.getLast?.toList

/-- The part of a line before its first `//`. -/
def stripComment : List Char → List Char
  | [] => []
  | '/' :: '/' :: _ => []
  | c :: rest => c :: stripComment rest

/-- What a line says: its text without comment and without blank margins. -/
def content (line : List Char) : List Char := trim (stripComment line)

end HackVM.Text
