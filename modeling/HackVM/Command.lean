import HackVM.Segment
import HackVM.Word

/-! # Commands

The commands of the stack machine and their text. Names are any strings: which names a source text
may contain is decided when it is read.
-/

namespace HackVM

/-- Arithmetic, comparison and bitwise operators on the top of the stack. -/
inductive Operator where
  | add
  | sub
  | neg
  | eq
  | gt
  | lt
  | and
  | or
  | not
deriving DecidableEq, Repr

namespace Operator

/-- Every operator. -/
def all : List Operator := [add, sub, neg, eq, gt, lt, and, or, not]

/-- The word that names an operator in source text. -/
def name : Operator → String
  | add => "add"
  | sub => "sub"
  | neg => "neg"
  | eq => "eq"
  | gt => "gt"
  | lt => "lt"
  | and => "and"
  | or => "or"
  | not => "not"

/-- The operator that a word names. -/
def ofName? (word : String) : Option Operator := all.find? fun operator => operator.name == word

end Operator

/-- One command of the stack machine. -/
inductive Command where
  | arithmetic (operator : Operator)
  | push (segment : Segment) (index : Word)
  | pop (segment : Segment) (index : Word)
  | label (name : String)
  | goto (name : String)
  | ifGoto (name : String)
  | function (name : String) (locals : Word)
  | call (name : String) (arguments : Word)
  | ret
deriving DecidableEq, Repr

namespace Command

/-- The command as a line of source text. -/
def render : Command → String
  | arithmetic operator => operator.name
  | push segment index => "push " ++ segment.name ++ " " ++ index.decimal
  | pop segment index => "pop " ++ segment.name ++ " " ++ index.decimal
  | label name => "label " ++ name
  | goto name => "goto " ++ name
  | ifGoto name => "if-goto " ++ name
  | function name locals => "function " ++ name ++ " " ++ locals.decimal
  | call name arguments => "call " ++ name ++ " " ++ arguments.decimal
  | ret => "return"

end Command

end HackVM
