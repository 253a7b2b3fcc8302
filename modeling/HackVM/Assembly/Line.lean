import HackVM.Instruction

/-! # Assembly lines

One line of assembly is a comment, the definition of a label, or an operation. An operation is an
instruction whose loaded address may still be a name. `Line.render` is the text of a line.
-/

namespace HackVM

/-- An instruction before the addresses of names are known. -/
inductive Operation where
  | number (value : Word)
  | symbol (name : String)
  | compute (dest : Dest) (comp : Comp) (jump : Option Jump)
deriving DecidableEq, Repr

/-- The text of an operation. -/
def Operation.render : Operation → String
  | number value => "@" ++ value.decimal
  | symbol name => "@" ++ name
  | compute dest comp jump =>
    (if dest.isEmpty then "" else dest.mnemonic ++ "=") ++ comp.mnemonic ++
      (match jump with
        | none => ""
        | some condition => ";" ++ condition.mnemonic)

/-- A line of assembly. -/
inductive Line where
  | comment (text : String)
  | label (name : String)
  | operation (code : Operation)
deriving DecidableEq, Repr

namespace Line

/-- The text of a line. -/
def render : Line → String
  | comment text => "// " ++ text
  | label name => "(" ++ name ++ ")"
  | operation code => code.render

/-- Load a number into A. -/
def number (value : Word) : Line := operation (.number value)

/-- Load the address of a name into A. -/
def symbol (name : String) : Line := operation (.symbol name)

/-- Store a computed word. -/
def store (dest : Dest) (comp : Comp) : Line := operation (.compute dest comp none)

/-- Jump to the address in A if a computed word meets a condition. -/
def jump (comp : Comp) (condition : Jump) : Line := operation (.compute {} comp (some condition))

end Line

end HackVM
