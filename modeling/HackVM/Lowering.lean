import HackVM.Lowering.Generator

/-! # Lowering commands

The code of a command in the current state of a generator, of a sequence of commands, and of the
start of a program. Labels that the code needs are named, checked and recorded on the way.
-/

namespace HackVM

namespace Lowering

/-- The code of a comparison, with two fresh labels of one number. -/
def comparison (condition : Jump) : Lowering (List Line) := do
  let number ← takeNumber
  let owner := (← get).unit
  let hit := Label.generated owner .comparison number
  let done := Label.generated owner .comparisonEnd number
  define hit
  define done
  return Template.comparison condition hit done

/-- The code of an operator. -/
def arithmetic : Operator → Lowering (List Line)
  | .add => return Template.binary (.add .m)
  | .sub => return Template.binary (.minusD .m)
  | .and => return Template.binary (.and .m)
  | .or => return Template.binary (.or .m)
  | .neg => return Template.unary (.neg .m)
  | .not => return Template.unary (.not .m)
  | .eq => comparison .eq
  | .gt => comparison .gt
  | .lt => comparison .lt

/-- The code of a push. -/
def push (segment : Segment) (index : Word) : Lowering (List Line) := do
  return Template.push (← locate segment index)

/-- The code of a pop. A constant has no cell to pop into. -/
def pop (segment : Segment) (index : Word) : Lowering (List Line) := do
  if segment = .constant then throw (.popToSegment segment)
  match ← locate segment index with
  | .immediate _ => throw (.popToSegment segment)
  | .indirect base offset => return Template.popIndirect base offset
  | .direct name => return Template.popCell name

/-- The code of a label. -/
def label (name : String) : Lowering (List Line) := do
  let name := (← get).labelName name
  define name
  return [.label name]

/-- The code of a function's entry. Labels that follow belong to the function. -/
def function (name : String) (locals : Word) : Lowering (List Line) := do
  define name
  modify fun generator => { generator with function := some name }
  return Template.function name locals

/-- The most arguments that a call can pass: with the frame they still fit a loaded number. -/
def maxArguments : Word := 32767 - Template.frameSize

/-- The code of a call, with a fresh return label. -/
def call (name : String) (arguments : Word) : Lowering (List Line) := do
  if maxArguments < arguments then throw (.tooManyArguments arguments maxArguments)
  let number ← takeNumber
  let returnPoint := Label.generated (← get).unit .returnPoint number
  define returnPoint
  return Template.call name arguments returnPoint

/-- The code of a command, without its annotation. -/
def code : Command → Lowering (List Line)
  | .arithmetic operator => arithmetic operator
  | .push segment index => push segment index
  | .pop segment index => pop segment index
  | .label name => label name
  | .goto name => return Template.goto ((← get).labelName name)
  | .ifGoto name => return Template.ifGoto ((← get).labelName name)
  | .function name locals => function name locals
  | .call name arguments => call name arguments
  | .ret => return Template.ret

/-- The code of a command, after a comment with the command's text if comments are wanted. -/
def command (command : Command) : Lowering (List Line) := do
  let lines ← code command
  return if (← get).annotate then .comment command.render :: lines else lines

/-- The code of a sequence of commands, up to the first that has none. -/
def commands (commands : List Command) : Lowering (List Line) :=
  return (← commands.mapM command).flatten

end Lowering

namespace Generator

/-- The owner of the label behind the opening call. -/
def bootstrapOwner : String := "BOOTSTRAP"

/-- Look for a free return label, starting at a number, for a number of attempts. -/
def findReturnNumber (generator : Generator) : Nat → Nat → Nat
  | 0, number => number
  | attempts + 1, number =>
    if generator.isTaken (Label.generated bootstrapOwner .returnPoint number) then
      generator.findReturnNumber attempts (number + 1)
    else number

/-- The least free number, from the counter on, for the label behind the opening call. There are more attempts than
names in use. -/
def returnNumber (generator : Generator) : Nat :=
  generator.findReturnNumber (generator.statics.count + generator.defined.size + 1)
    generator.counter.next

/-- The code that starts a program, calling its entry without arguments. -/
def bootstrap (generator : Generator) (entry : String) : List Line × Generator :=
  let note (text : String) : List Line := if generator.annotate then [.comment text] else []
  let number := generator.returnNumber
  let returnPoint := Label.generated bootstrapOwner .returnPoint number
  (note "bootstrap" ++ Template.initStack ++ note (Command.call entry 0).render ++
    Template.call entry 0 returnPoint,
   { generator with
      counter := ⟨number + 1⟩
      defined := generator.defined.insert returnPoint })

end Generator

end HackVM
