/-! # Memory segments

The eight segments that a program names in its memory commands.
-/

namespace HackVM

/-- A segment, in the order in which segments are listed. -/
inductive Segment where
  | constant
  | locals
  | static
  | argument
  | this
  | that
  | pointer
  | temp
deriving DecidableEq, Repr

namespace Segment

/-- Every segment, in order. -/
def all : List Segment := [constant, locals, static, argument, this, that, pointer, temp]

/-- The word that names a segment in source text. -/
def name : Segment → String
  | constant => "constant"
  | locals => "local"
  | static => "static"
  | argument => "argument"
  | this => "this"
  | that => "that"
  | pointer => "pointer"
  | temp => "temp"

/-- The segment that a word names. -/
def ofName? (word : String) : Option Segment := all.find? fun segment => segment.name == word

/-- Position in the listing order. -/
def rank (segment : Segment) : Nat := all.idxOf segment

/-- Sort by position, keeping repetitions. -/
def sort (segments : List Segment) : List Segment :=
  segments.mergeSort fun left right => left.rank ≤ right.rank

end Segment

end HackVM
