import Std.Data.TreeMap
import HackVM.Assembly.Statement

/-! # Program images

An image is a program ready to run: its instructions and the addresses of its symbols. Assembling
takes two passes. The first binds each label to the number of statements other than labels before it.
The second emits the instructions and gives each name that is still unknown the next free cell.
-/

namespace HackVM

/-- Addresses of names. -/
abbrev SymbolTable := Std.TreeMap String Word

/-- The instructions of a program and the addresses of its symbols. -/
structure Image where
  instructions : Array Instruction
  symbols : SymbolTable

namespace Image

/-- The names that every program knows. -/
def predefined : SymbolTable :=
  .ofList ([("SP", 0), ("LCL", 1), ("ARG", 2), ("THIS", 3), ("THAT", 4), ("SCREEN", 16384),
      ("KBD", 24576)] ++
    (List.range 16).map fun register => ("R" ++ register.repr, BitVec.ofNat 16 register))

/-- The cell of the first name that is neither predefined nor a label. -/
def firstVariable : Nat := 16

/-- The number after a given one, if 16 bits hold it. -/
def successor? (number : Nat) : Option Nat :=
  if number + 1 < 65536 then some (number + 1) else none

/-- What the first pass knows: the names bound so far and the number of statements counted. -/
structure Labels where
  symbols : SymbolTable := predefined
  count : Nat := 0

/-- One statement of the first pass. -/
def Labels.scan (labels : Labels) : Statement → Except AssemblyError Labels
  | .label name =>
    if labels.symbols.contains name then .error (.duplicateLabel name)
    else .ok { labels with symbols := labels.symbols.insert name (BitVec.ofNat 16 labels.count) }
  | .unclosed | .operation _ =>
    match successor? labels.count with
    | some count => .ok { labels with count }
    | none => .error .outOfAddresses

/-- What the second pass knows: the image so far and the next free cell. -/
structure Layout where
  instructions : Array Instruction := #[]
  symbols : SymbolTable
  nextVariable : Nat := firstVariable

namespace Layout

/-- Append an instruction. -/
def emit (layout : Layout) (instruction : Instruction) : Layout :=
  { layout with instructions := layout.instructions.push instruction }

/-- Emit an operation, allotting a cell to an unknown name. -/
def place (layout : Layout) : Operation → Except AssemblyError Layout
  | .number value => .ok (layout.emit (.load value))
  | .compute dest comp jump => .ok (layout.emit (.compute dest comp jump))
  | .symbol name =>
    match layout.symbols[name]? with
    | some address => .ok (layout.emit (.load address))
    | none =>
      match successor? layout.nextVariable with
      | some nextVariable =>
        let address := BitVec.ofNat 16 layout.nextVariable
        .ok { layout.emit (.load address) with
          symbols := layout.symbols.insert name address
          nextVariable }
      | none => .error .outOfAddresses

/-- One statement of the second pass. -/
def scan (layout : Layout) : Statement → Except AssemblyError Layout
  | .operation text => do layout.place (← Operation.ofText text)
  | .label _ | .unclosed => .ok layout

end Layout

/-- Assemble statements. -/
def ofStatements (statements : List Statement) : Except AssemblyError Image := do
  let labels ← statements.foldlM Labels.scan {}
  let layout ← statements.foldlM Layout.scan { symbols := labels.symbols }
  return ⟨layout.instructions, layout.symbols⟩

/-- Assemble lines of text. -/
def assemble (lines : List String) : Except AssemblyError Image :=
  ofStatements (lines.filterMap Statement.ofLine?)

end Image

end HackVM
