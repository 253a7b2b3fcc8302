import HackVM.Label
import HackVM.Lowering.Template

/-! # The state of code generation

One generator serves a whole program. It knows the unit and the function whose commands it lowers,
the next label number, the static variables in use and every label that has been defined. A step that
fails keeps what it did before it failed.
-/

namespace HackVM

/-- What code generation remembers between commands. -/
structure Generator where
  unit : String
  function : Option String := none
  counter : LabelCounter := {}
  statics : StaticTable := {}
  defined : NameSet := ∅
  annotate : Bool := true

/-- A step of code generation. -/
abbrev Lowering := EStateM LoweringError Generator

namespace Generator

/-- Turn to another unit, outside any function. -/
def enterUnit (generator : Generator) (unit : String) : Generator :=
  { generator with unit, function := none }

/-- What surrounds source labels: the function, or outside any function the unit. -/
def scope (generator : Generator) : String := generator.function.getD generator.unit

/-- The full name of a source label. -/
def labelName (generator : Generator) (name : String) : String :=
  Label.inScope generator.scope name

/-- Whether a name can no longer be given to a label. -/
def isTaken (generator : Generator) (name : String) : Bool :=
  generator.statics.contains name || generator.defined.contains name

end Generator

namespace Lowering

/-- Take the next label number. -/
def takeNumber : Lowering Nat := fun generator =>
  let (number, counter) := generator.counter.take
  .ok number { generator with counter }

/-- Define a label, which must be neither a static variable nor a label already. -/
def define (name : String) : Lowering Unit := fun generator =>
  if generator.statics.contains name then .error (.staticClash name) generator
  else if generator.defined.contains name then .error (.duplicateLabel name) generator
  else .ok () { generator with defined := generator.defined.insert name }

/-- Locate an entry of a segment. A static variable counts as used even if its name turns out to be
that of a label. -/
def locate (segment : Segment) (index : Word) : Lowering Location := fun generator =>
  let (result, statics) := generator.statics.resolve generator.unit segment index
  let generator := { generator with statics }
  match result with
  | .error error => .error error generator
  | .ok (.direct name) =>
    if segment = .static && generator.defined.contains name then
      .error (.staticClash name) generator
    else .ok (.direct name) generator
  | .ok location => .ok location generator

end Lowering

end HackVM
