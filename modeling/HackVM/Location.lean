import Std.Data.TreeSet
import HackVM.Lowering.Error

/-! # Where a segment's entries are

Each index of a segment is a constant, a cell at an offset from one of the four frame pointers, or
a cell with a name of its own. `Segment.locate` decides which; static variables get a name from their
unit, and a table records the names in use.
-/

namespace HackVM

/-- A pointer of the current frame. -/
inductive Pointer where
  | locals
  | argument
  | this
  | that
deriving DecidableEq, Repr

/-- The predefined name of the cell that holds a pointer. -/
def Pointer.symbol : Pointer → String
  | locals => "LCL"
  | argument => "ARG"
  | this => "THIS"
  | that => "THAT"

/-- Where the entry of a segment is. -/
inductive Location where
  | immediate (value : Word)
  | indirect (base : Pointer) (offset : Word)
  | direct (symbol : String)
deriving DecidableEq, Repr

/-- A set of names. -/
abbrev NameSet := Std.TreeSet String

/-- The name of a unit's static variable. -/
def staticSymbol (unit : String) (index : Word) : String := unit ++ "." ++ index.decimal

namespace Segment

/-- The cell of the first temporary. -/
def tempBase : Word := 5

/-- The largest index of a segment. An index of a static variable is not bounded. -/
def limit? : Segment → Option Word
  | constant | locals | argument | this | that => some 32767
  | static => none
  | pointer => some 1
  | temp => some 7

/-- Where an index in range leads. -/
def place (unit : String) (segment : Segment) (index : Word) : Location :=
  match segment with
  | constant => .immediate index
  | locals => .indirect .locals index
  | argument => .indirect .argument index
  | this => .indirect .this index
  | that => .indirect .that index
  | static => .direct (staticSymbol unit index)
  | pointer => .direct (if index = 0 then Pointer.this.symbol else Pointer.that.symbol)
  | temp => .direct ("R" ++ (tempBase + index).decimal)

/-- Where an index of a segment leads in a unit. -/
def locate (unit : String) (segment : Segment) (index : Word) : Except LoweringError Location :=
  match segment.limit? with
  | some limit =>
    if limit < index then .error (.indexOutOfRange segment index limit)
    else .ok (segment.place unit index)
  | none => .ok (segment.place unit index)

end Segment

/-- The static variables that a program has used so far, by name. -/
structure StaticTable where
  symbols : NameSet := ∅

namespace StaticTable

/-- The number of static variables in use. -/
def count (table : StaticTable) : Nat := table.symbols.size

/-- Whether a name is that of a static variable in use. -/
def contains (table : StaticTable) (name : String) : Bool := table.symbols.contains name

/-- Record the static variable of a unit. -/
def record (table : StaticTable) (unit : String) (index : Word) : StaticTable :=
  ⟨table.symbols.insert (staticSymbol unit index)⟩

/-- Locate an index and record it if it is a static variable. -/
def resolve (table : StaticTable) (unit : String) (segment : Segment) (index : Word) :
    Except LoweringError Location × StaticTable :=
  (segment.locate unit index, if segment = .static then table.record unit index else table)

end StaticTable

end HackVM
