/-! # Labels

Label names are built from a scope and the name in the source, or from an owner, a purpose and a
number. Numbers come from a counter; the two labels of one comparison share a number and differ in
purpose.
-/

namespace HackVM

namespace Label

/-- The name of a source label inside the function, or outside any function the unit, around it. -/
def inScope (scope name : String) : String := scope ++ "$" ++ name

/-- What a generated label marks. -/
inductive Purpose where
  | comparison
  | comparisonEnd
  | returnPoint
deriving DecidableEq, Repr

namespace Purpose

/-- The word for the purpose in a label's name. -/
def name : Purpose → String
  | comparison => "CMP"
  | comparisonEnd => "ENDCMP"
  | returnPoint => "RET"

end Purpose

/-- The name of a generated label. -/
def generated (owner : String) (purpose : Purpose) (number : Nat) : String :=
  owner ++ ":" ++ purpose.name ++ "_" ++ number.repr

end Label

/-- The source of label numbers. -/
structure LabelCounter where
  next : Nat := 0
deriving DecidableEq, Repr

namespace LabelCounter

/-- The next number, and the counter after it. -/
def take (counter : LabelCounter) : Nat × LabelCounter := (counter.next, ⟨counter.next + 1⟩)

/-- The next value of a counter held in 64 bits, which has to hold the following value as well. -/
def take? (counter : LabelCounter) : Option (Nat × LabelCounter) :=
  if counter.next + 1 < 18446744073709551616 then some counter.take else none

/-- Ask a number of times, keeping the counter when its range is used up. -/
def takeMany : Nat → LabelCounter → List (Option Nat)
  | 0, _ => []
  | count + 1, counter =>
    match counter.take? with
    | some (number, rest) => some number :: takeMany count rest
    | none => none :: takeMany count counter

end LabelCounter

end HackVM
