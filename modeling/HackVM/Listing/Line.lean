import HackVM.Command
import HackVM.Text.Lines

/-! # Reading one command

The grammar of a command line. The mnemonic is the first word; a word ends at any blank. Operands
stand apart by runs of spaces and tabs only, and nothing may follow the last one. A segment operand
is any word; whether it names a segment is asked only after the whole line has the right shape.
-/

namespace HackVM

/-- Why a line is not a command. -/
inductive LineFault where
  | unrecognizedMnemonic (word : String)
  | malformedOperands (mnemonic text : String)
  | unknownSegment (word : String)
deriving DecidableEq, Repr

/-- The fault in words. -/
def LineFault.message : LineFault → String
  | unrecognizedMnemonic word => "unrecognized mnemonic `" ++ word ++ "`"
  | malformedOperands mnemonic text =>
    "malformed operands for `" ++ mnemonic ++ "` in `" ++ text ++ "`"
  | unknownSegment word => "unknown segment `" ++ word ++ "`"

namespace Listing

/-- Whether a character may separate operands. -/
def isSeparator (c : Char) : Bool := c == ' ' || c == '\t'

/-- Whether a character may occur in a name. -/
def isNameChar (c : Char) : Bool :=
  c.isAlphanum || c == '_' || c == '.' || c == '$' || c == ':'

/-- The longest leading run of characters of a class, which must not be empty, and the rest. -/
def takeRun? (accepts : Char → Bool) (text : List Char) : Option (List Char × List Char) :=
  match text.span accepts with
  | ([], _) => none
  | (run, rest) => some (run, rest)

/-- Skip at least one separator. -/
def skipSeparators? (text : List Char) : Option (List Char) :=
  (takeRun? isSeparator text).map (·.2)

/-- Separators and then a word. -/
def wordOperand? (text : List Char) : Option (String × List Char) := do
  let text ← skipSeparators? text
  let (word, rest) ← takeRun? (fun c => !Text.isBlank c) text
  return (String.ofList word, rest)

/-- Separators and then a name, which starts with no digit. -/
def nameOperand? (text : List Char) : Option (String × List Char) := do
  let text ← skipSeparators? text
  let (name, rest) ← takeRun? isNameChar text
  if name.head?.any Char.isDigit then none else return (String.ofList name, rest)

/-- Separators and then a number of 16 bits. -/
def numberOperand? (text : List Char) : Option (Word × List Char) := do
  let text ← skipSeparators? text
  let (digits, rest) ← takeRun? Char.isDigit text
  return (← Word.ofDigits? digits, rest)

/-- The value of a reading that has consumed the whole text. -/
def complete? {α : Type} : Option (α × List Char) → Option α
  | some (value, []) => some value
  | _ => none

/-- One name and nothing else. -/
def name? (text : List Char) : Option String := complete? (nameOperand? text)

/-- A name, a number and nothing else. -/
def nameAndNumber? (text : List Char) : Option (String × Word) := do
  let (name, rest) ← nameOperand? text
  return (name, ← complete? (numberOperand? rest))

/-- A word, a number and nothing else. -/
def wordAndNumber? (text : List Char) : Option (String × Word) := do
  let (word, rest) ← wordOperand? text
  return (word, ← complete? (numberOperand? rest))

/-- Read a command from a line that has no comment, no blank margins and at least one word. -/
def command (line : List Char) : Except LineFault Command :=
  let (word, operands) := Text.splitWord line
  let mnemonic := String.ofList word
  let shaped {α : Type} : Option α → Except LineFault α
    | some value => .ok value
    | none => .error (.malformedOperands mnemonic (String.ofList line))
  let memory (make : Segment → Word → Command) : Except LineFault Command := do
    let (name, index) ← shaped (wordAndNumber? operands)
    match Segment.ofName? name with
    | some segment => return make segment index
    | none => throw (.unknownSegment name)
  match mnemonic with
  | "push" => memory .push
  | "pop" => memory .pop
  | "label" => .label <$> shaped (name? operands)
  | "goto" => .goto <$> shaped (name? operands)
  | "if-goto" => .ifGoto <$> shaped (name? operands)
  | "function" => (fun (name, locals) => .function name locals) <$> shaped (nameAndNumber? operands)
  | "call" => (fun (name, arguments) => .call name arguments) <$> shaped (nameAndNumber? operands)
  | "return" => shaped (if operands.isEmpty then some .ret else none)
  | _ =>
    match Operator.ofName? mnemonic with
    | some operator => shaped (if operands.isEmpty then some (.arithmetic operator) else none)
    | none => .error (.unrecognizedMnemonic mnemonic)

end Listing

end HackVM
