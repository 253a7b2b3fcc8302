import HackVM.Event
import HackVM.Listing
import HackVM.Lowering

/-! # Programs of several units

A program is built from units, each with a name and a listing. A draft holds the program so far; a
unit that has no code leaves the draft as it was. Finishing a draft puts the start of the program in
front of the code of its units.
-/

namespace HackVM

/-- A named listing. -/
structure SourceUnit where
  name : String
  listing : Listing
deriving DecidableEq, Repr

/-- Why a line of a unit has no code. -/
inductive UnitFault where
  | reading (fault : LineFault)
  | lowering (error : LoweringError)
deriving DecidableEq, Repr

/-- The fault in words. -/
def UnitFault.message : UnitFault → String
  | reading fault => fault.message
  | lowering error => error.message

/-- A line of a unit that has no code. -/
structure UnitError where
  unit : String
  line : Nat
  fault : UnitFault
deriving DecidableEq, Repr

/-- The error in words, with the unit and the number of the line. -/
def UnitError.message (error : UnitError) : String :=
  error.unit ++ ": line " ++ error.line.repr ++ ": " ++ error.fault.message

namespace SourceUnit

/-- Read a unit from its source text. -/
def ofSource (name source : String) : Except UnitError SourceUnit :=
  match Listing.ofSource source with
  | .ok listing => .ok ⟨name, listing⟩
  | .error error => .error ⟨name, error.line, .reading error.fault⟩

/-- A unit made of commands, numbered by position. -/
def ofCommands (name : String) (commands : List Command) : SourceUnit :=
  ⟨name, Listing.ofCommands commands⟩

/-- Whether a unit has the entry of a function. -/
def defines (unit : SourceUnit) (function : String) : Bool :=
  unit.listing.any fun numbered =>
    match numbered.command with
    | .function name _ => name == function
    | _ => false

end SourceUnit

/-- When a program begins with a call of its entry. -/
inductive BootstrapMode where
  | auto
  | always
  | never
deriving DecidableEq, Repr

namespace BootstrapMode

/-- Every mode. -/
def all : List BootstrapMode := [auto, always, never]

/-- The word for the mode. -/
def name : BootstrapMode → String
  | auto => "auto"
  | always => "always"
  | never => "never"

/-- The mode that a word names. -/
def ofName? (word : String) : Option BootstrapMode := all.find? fun mode => mode.name == word

/-- Whether to call the entry, given whether some unit defines it. -/
def wanted (mode : BootstrapMode) (entryDefined : Bool) : Bool :=
  match mode with
  | auto => entryDefined
  | always => true
  | never => false

end BootstrapMode

/-- How a program is put together. -/
structure BuildOptions where
  bootstrap : BootstrapMode := .auto
  entry : String := "Sys.init"
  annotate : Bool := true
deriving DecidableEq, Repr

/-- The program so far: the state of code generation, and the code and the number of the units. -/
structure Draft where
  options : BuildOptions
  generator : Generator
  code : List Line := []
  units : Nat := 0
  entryDefined : Bool := false

namespace Draft

/-- A program without units. -/
def empty (options : BuildOptions) : Draft :=
  { options, generator := { unit := "", annotate := options.annotate } }

/-- The code of a numbered command; a failure tells the number. -/
def numberedCode (numbered : NumberedCommand) :
    EStateM (Nat × LoweringError) Generator (List Line) :=
  (Lowering.command numbered.command).adaptExcept fun error => (numbered.line, error)

/-- Lower the commands of a unit with the generator of a draft, up to the first that has no code. What the
generator did up to there stays. -/
def lowerUnit (unit : SourceUnit) : EStateM UnitError Draft (List (List Line)) := fun draft =>
  match unit.listing.mapM numberedCode (draft.generator.enterUnit unit.name) with
  | .ok blocks generator => .ok blocks { draft with generator }
  | .error (line, error) generator => .error ⟨unit.name, line, .lowering error⟩ { draft with generator }

/-- Work on a draft that, if it fails, puts the generator back to where it was. -/
def restoring {α : Type} (work : EStateM UnitError Draft α) : EStateM UnitError Draft α := fun draft =>
  match work draft with
  | .ok value next => .ok value next
  | .error error stopped => .error error { stopped with generator := draft.generator }

/-- Append a unit in place, if all of its commands have code. -/
def append (unit : SourceUnit) : EStateM UnitError Draft Event := do
  let blocks ← restoring (lowerUnit unit)
  let lines := blocks.flatten
  modify fun draft => { draft with
    code := draft.code ++ lines
    units := draft.units + 1
    entryDefined := draft.entryDefined || unit.defines draft.options.entry }
  return .loweredUnit unit.name unit.listing.length lines.length

/-- A draft with a unit appended. -/
def add (draft : Draft) (unit : SourceUnit) : Except UnitError (Draft × Event) :=
  match append unit draft with
  | .error error _ => .error error
  | .ok event next => .ok (next, event)

/-- The finished program and what there is to report about it. -/
def finish (draft : Draft) : List Line × List Event :=
  let bootstrap := draft.options.bootstrap.wanted draft.entryDefined
  let (start, generator) :=
    if bootstrap then draft.generator.bootstrap draft.options.entry else ([], draft.generator)
  let lines := start ++ draft.code
  (lines,
   (if bootstrap then [.emittingBootstrap draft.options.entry] else []) ++
    [.linkedProgram draft.units generator.statics.count lines.length bootstrap])

end Draft

/-- Build a program from units; the first command without code stops the building. -/
def link (options : BuildOptions) (units : List SourceUnit) : Except UnitError (List Line) := do
  let draft ← units.foldlM (fun draft unit => return (← draft.add unit).1) (Draft.empty options)
  return draft.finish.1

/-- Build a program from named source texts, all of which are read before the building starts. -/
def linkSources (options : BuildOptions) (sources : List (String × String)) :
    Except UnitError (List Line) := do
  link options (← sources.mapM fun (name, source) => SourceUnit.ofSource name source)

end HackVM
