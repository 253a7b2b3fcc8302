import HackVM.Assembly.Line
import HackVM.Text.Lines

/-! # Reading assembly text

A line counts without its comment and without any blank. What is left is nothing, a label in
parentheses, or the text of an operation. The text of an operation is read separately, since labels
are collected before any operation is.
-/

namespace HackVM

/-- Why lines of text are not a program. -/
inductive AssemblyError where
  | invalidJump (text : String)
  | invalidDest (text : String)
  | invalidComp (text : String)
  | invalidAddress
  | duplicateLabel (name : String)
  | outOfAddresses
deriving DecidableEq, Repr

/-- The error in words. -/
def AssemblyError.message : AssemblyError → String
  | invalidJump text => "not a Hack jump: " ++ text
  | invalidDest text => "not a Hack dest: " ++ text
  | invalidComp text => "not a Hack comp: " ++ text
  | invalidAddress => "address fits"
  | duplicateLabel name => "label defined twice: " ++ name
  | outOfAddresses => "no address is left"

namespace Operation

/-- Read the optional jump of a computation. -/
def readJump : Option (List Char) → Except AssemblyError (Option Jump)
  | none => .ok none
  | some text =>
    match Jump.ofMnemonic? (String.ofList text) with
    | some jump => .ok (some jump)
    | none => .error (.invalidJump (String.ofList text))

/-- Read a computation `dest=comp;jump`, in which the destination and the jump may be missing. A wrong
jump is told before a wrong destination, and that before a wrong function. -/
def readCompute (text : List Char) : Except AssemblyError Operation := do
  let (dest, rest) := (Text.cut? '=' text).getD ([], text)
  let (comp, jump) := match Text.cut? ';' rest with
    | some (comp, jump) => (comp, some jump)
    | none => (rest, none)
  let jump ← readJump jump
  match Dest.ofLetters? dest, Comp.ofMnemonic? (String.ofList comp) with
  | none, _ => throw (.invalidDest (String.ofList dest))
  | _, none => throw (.invalidComp (String.ofList comp))
  | some dest, some comp => return .compute dest comp jump

/-- Read an operation. After `@`, a text of digits only is a number. -/
def ofText : List Char → Except AssemblyError Operation
  | '@' :: name =>
    if name.all Char.isDigit then
      match Word.ofDigits? name with
      | some value => .ok (.number value)
      | none => .error .invalidAddress
    else .ok (.symbol (String.ofList name))
  | text => readCompute text

end Operation

/-- What a line of assembly text says. -/
inductive Statement where
  | label (name : String)
  | unclosed
  | operation (text : List Char)
deriving DecidableEq, Repr

namespace Statement

/-- Classify the text that is left of a line. A text that opens a parenthesis without closing it at its
end is neither a label nor an operation. -/
def ofText? : List Char → Option Statement
  | [] => none
  | '(' :: rest =>
    some (if rest.getLast? = some ')' then label (String.ofList rest.dropLast) else unclosed)
  | text => some (operation text)

/-- Read a line of text. -/
def ofLine? (line : String) : Option Statement :=
  ofText? ((Text.stripComment line.toList).filter fun c => !Text.isBlank c)

end Statement

end HackVM
