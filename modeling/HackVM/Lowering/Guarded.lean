import HackVM.Lowering

/-! # Lowering with checked sums

Words are added and subtracted in three places of lowering: for the cell of a temporary, for the most arguments of a
call, and for the size of a frame with its arguments. Here are the definitions that lead to these places once more,
each under the name it has in lowering, with a check in front of every sum and difference.
-/

namespace HackVM

/-- Lowering in which a sum or a difference that is no word ends everything, with no error to tell. -/
abbrev Guarded := EStateM (Option LoweringError) Generator

namespace Guarded

variable {α : Type}

/-- A step that forms neither sums nor differences. -/
def ofLowering (step : Lowering α) : Guarded α := step.adaptExcept some

/-- Stop unless the sum of two words is a word. -/
def checkSum (left right : Word) : Guarded Unit :=
  if left.toNat + right.toNat < 65536 then pure () else throw none

/-- Stop unless the difference of two words is a word. -/
def checkDifference (left right : Word) : Guarded Unit :=
  if right.toNat ≤ left.toNat then pure () else throw none

/-- Locate an entry. The cell of a temporary is a sum, formed once its index has passed. -/
def locate (segment : Segment) (index : Word) : Guarded Location := do
  let location ← ofLowering (Lowering.locate segment index)
  if segment = .temp then checkSum Segment.tempBase index
  return location

/-- The code of a pop. -/
def pop (segment : Segment) (index : Word) : Guarded (List Line) := do
  if segment = .constant then throw (some (.popToSegment segment))
  match ← locate segment index with
  | .immediate _ => throw (some (.popToSegment segment))
  | .indirect base offset => return Template.popIndirect base offset
  | .direct name => return Template.popCell name

/-- The code of a call. The limit is a difference, and the size of the frame with the arguments is a sum, formed once
the return label is defined. -/
def call (name : String) (arguments : Word) : Guarded (List Line) := do
  checkDifference 32767 Template.frameSize
  if Lowering.maxArguments < arguments then
    throw (some (.tooManyArguments arguments Lowering.maxArguments))
  let number ← ofLowering Lowering.takeNumber
  let returnPoint := Label.generated (← get).unit .returnPoint number
  ofLowering (Lowering.define returnPoint)
  checkSum arguments Template.frameSize
  return Template.call name arguments returnPoint

/-- The code of a command, without its annotation. -/
def code : Command → Guarded (List Line)
  | .push segment index => do return Template.push (← locate segment index)
  | .pop segment index => pop segment index
  | .call name arguments => call name arguments
  | command => ofLowering (Lowering.code command)

/-- The code of a command, after a comment with the command's text if comments are wanted. -/
def command (command : Command) : Guarded (List Line) := do
  let lines ← code command
  return if (← get).annotate then .comment command.render :: lines else lines

/-- The code that starts a program. -/
def bootstrap (entry : String) : Guarded (List Line) := do
  checkSum 0 Template.frameSize
  modifyGet fun generator => generator.bootstrap entry

end Guarded

end HackVM
