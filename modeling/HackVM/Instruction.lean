import HackVM.Word

/-! # Machine instructions

The machine has a data register D, an address register A, and the memory cell M that A selects. An
instruction either loads a word into A or computes one of 28 functions of D and of A or M, stores the
result in any of the three places and may jump on its sign. Every part has its mnemonic.
-/

namespace HackVM

/-- The places where a computed word is stored. -/
structure Dest where
  a : Bool := false
  m : Bool := false
  d : Bool := false
deriving DecidableEq, Repr

namespace Dest

/-- Store in A only. -/
def A : Dest := { a := true }

/-- Store in M only. -/
def M : Dest := { m := true }

/-- Store in D only. -/
def D : Dest := { d := true }

/-- Store in A and M. The cell is the one that A selected before. -/
def AM : Dest := { a := true, m := true }

/-- Whether the result is stored nowhere. -/
def isEmpty (dest : Dest) : Bool := !(dest.a || dest.m || dest.d)

/-- The letters of the places, in the order A, M, D. -/
def mnemonic (dest : Dest) : String :=
  (if dest.a then "A" else "") ++ (if dest.m then "M" else "") ++ (if dest.d then "D" else "")

/-- Read letters in any order; a repeated letter says nothing new. -/
def ofLetters? (letters : List Char) : Option Dest :=
  if letters.all fun c => c == 'A' || c == 'M' || c == 'D' then
    some ⟨letters.contains 'A', letters.contains 'M', letters.contains 'D'⟩
  else none

end Dest

/-- What feeds the second input of the arithmetic unit; the first is always D. -/
inductive Source where
  | a
  | m
deriving DecidableEq, Repr

namespace Source

/-- The letter of the source. -/
def mnemonic : Source → String
  | a => "A"
  | m => "M"

/-- The word that is fed, given those in A and in M. -/
def pick (source : Source) (inA inM : Word) : Word :=
  match source with
  | a => inA
  | m => inM

end Source

/-- A function of the arithmetic unit. -/
inductive Comp where
  | zero
  | one
  | minusOne
  | d
  | notD
  | negD
  | incD
  | decD
  | read (source : Source)
  | not (source : Source)
  | neg (source : Source)
  | inc (source : Source)
  | dec (source : Source)
  | add (source : Source)
  | dMinus (source : Source)
  | minusD (source : Source)
  | and (source : Source)
  | or (source : Source)
deriving DecidableEq, Repr

namespace Comp

/-- Every function with the second input from a given source. -/
def withSource (source : Source) : List Comp :=
  [read source, not source, neg source, inc source, dec source, add source, dMinus source,
   minusD source, and source, or source]

/-- Every function of the arithmetic unit. -/
def all : List Comp :=
  [zero, one, minusOne, d, notD, negD, incD, decD] ++ withSource .a ++ withSource .m

/-- The text of the function. -/
def mnemonic : Comp → String
  | zero => "0"
  | one => "1"
  | minusOne => "-1"
  | d => "D"
  | notD => "!D"
  | negD => "-D"
  | incD => "D+1"
  | decD => "D-1"
  | read source => source.mnemonic
  | not source => "!" ++ source.mnemonic
  | neg source => "-" ++ source.mnemonic
  | inc source => source.mnemonic ++ "+1"
  | dec source => source.mnemonic ++ "-1"
  | add source => "D+" ++ source.mnemonic
  | dMinus source => "D-" ++ source.mnemonic
  | minusD source => source.mnemonic ++ "-D"
  | and source => "D&" ++ source.mnemonic
  | or source => "D|" ++ source.mnemonic

/-- The function with a given mnemonic. -/
def ofMnemonic? (text : String) : Option Comp := all.find? fun comp => comp.mnemonic == text

/-- Whether the memory cell is an input. -/
def readsMemory : Comp → Bool
  | read .m | not .m | neg .m | inc .m | dec .m | add .m | dMinus .m | minusD .m | and .m | or .m =>
    true
  | _ => false

/-- The computed word, modulo 2 ^ 16, from the words in D, A and M. -/
def eval (comp : Comp) (inD inA inM : Word) : Word :=
  match comp with
  | zero => 0
  | one => 1
  | minusOne => -1
  | d => inD
  | notD => ~~~inD
  | negD => -inD
  | incD => inD + 1
  | decD => inD - 1
  | read source => source.pick inA inM
  | not source => ~~~source.pick inA inM
  | neg source => -source.pick inA inM
  | inc source => source.pick inA inM + 1
  | dec source => source.pick inA inM - 1
  | add source => inD + source.pick inA inM
  | dMinus source => inD - source.pick inA inM
  | minusD source => source.pick inA inM - inD
  | and source => inD &&& source.pick inA inM
  | or source => inD ||| source.pick inA inM

end Comp

/-- A condition on the computed word under which control moves to the address in A. -/
inductive Jump where
  | gt
  | eq
  | ge
  | lt
  | ne
  | le
  | always
deriving DecidableEq, Repr

namespace Jump

/-- Every condition. -/
def all : List Jump := [gt, eq, ge, lt, ne, le, always]

/-- The word for the condition. -/
def mnemonic : Jump → String
  | gt => "JGT"
  | eq => "JEQ"
  | ge => "JGE"
  | lt => "JLT"
  | ne => "JNE"
  | le => "JLE"
  | always => "JMP"

/-- The condition with a given mnemonic. -/
def ofMnemonic? (text : String) : Option Jump := all.find? fun jump => jump.mnemonic == text

/-- Whether a word, read as signed, meets the condition. -/
def holds (jump : Jump) (word : Word) : Bool :=
  match jump with
  | gt => 0 < word.toInt
  | eq => word.toInt = 0
  | ge => 0 ≤ word.toInt
  | lt => word.toInt < 0
  | ne => word.toInt ≠ 0
  | le => word.toInt ≤ 0
  | always => true

end Jump

/-- An instruction as the machine executes it. -/
inductive Instruction where
  | load (value : Word)
  | compute (dest : Dest) (comp : Comp) (jump : Option Jump)
deriving DecidableEq, Repr

end HackVM
