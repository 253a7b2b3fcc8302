import HackVM.Assembly.Line
import HackVM.Command
import HackVM.Location

/-! # Code templates

The assembly behind each command, with every name already chosen. SP holds the address of the first
free cell above the stack. A frame below the locals holds the return address and the caller's four
pointers. R13 and R14 are scratch cells.
-/

namespace HackVM.Template

open Line

/-- The cells that a call saves: the return address and the four pointers. -/
def frameSize : Word := 5

/-- The first cell of the stack. -/
def stackBase : Word := 256

/-- Push the word in D. -/
def pushD : List Line :=
  [symbol "SP", store .M (.inc .m), store .A (.dec .m), store .M .d]

/-- Pop a word into D, leaving its address in A. -/
def popD : List Line :=
  [symbol "SP", store .AM (.dec .m), store .D (.read .m)]

/-- Push the address of a name. -/
def pushAddress (name : String) : List Line :=
  [symbol name, store .D (.read .a)] ++ pushD

/-- Push the word in a named cell. -/
def pushCell (name : String) : List Line :=
  [symbol name, store .D (.read .m)] ++ pushD

/-- Pop a word into a named cell. -/
def popCell (name : String) : List Line :=
  popD ++ [symbol name, store .M .d]

/-- Push the entry at a location. -/
def push : Location → List Line
  | .immediate value => [number value, store .D (.read .a)] ++ pushD
  | .indirect base offset =>
    [symbol base.symbol, store .D (.read .m), number offset, store .A (.add .a),
     store .D (.read .m)] ++ pushD
  | .direct name => pushCell name

/-- Pop into the cell at an offset from a pointer. The target is computed before the stack shrinks. -/
def popIndirect (base : Pointer) (offset : Word) : List Line :=
  [symbol base.symbol, store .D (.read .m), number offset, store .D (.add .a), symbol "R13",
   store .M .d] ++ popD ++ [symbol "R13", store .A (.read .m), store .M .d]

/-- Replace the top of the stack by a function of it. -/
def unary (comp : Comp) : List Line :=
  [symbol "SP", store .A (.dec .m), store .M comp]

/-- Replace the two topmost words by a function of them, the upper one in D and the lower one in M. -/
def binary (comp : Comp) : List Line :=
  popD ++ [store .A (.dec .a), store .M comp]

/-- Replace the two topmost words by a truth value: all ones if their difference meets the condition,
and zero otherwise. -/
def comparison (condition : Jump) (hit done : String) : List Line :=
  popD ++ [store .A (.dec .a), store .D (.minusD .m), symbol hit, jump .d condition,
    store .D .zero, symbol done, jump .zero .always, label hit, store .D .minusOne, label done,
    symbol "SP", store .A (.dec .m), store .M .d]

/-- Continue at a label. -/
def goto (target : String) : List Line := [symbol target, jump .zero .always]

/-- Pop a word and continue at a label unless it is zero. -/
def ifGoto (target : String) : List Line := popD ++ [symbol target, jump .d .ne]

/-- Mark the entry of a function and push a zero for each local. -/
def function (name : String) (locals : Word) : List Line :=
  label name :: (List.replicate locals.toNat
    [symbol "SP", store .M (.inc .m), store .A (.dec .m), store .M .zero]).flatten

/-- Save a frame, aim the pointers at the callee's arguments and locals, and continue at the callee.
The return label stands right behind. -/
def call (name : String) (arguments : Word) (returnPoint : String) : List Line :=
  pushAddress returnPoint ++
    [Pointer.locals, .argument, .this, .that].flatMap (fun pointer => pushCell pointer.symbol) ++
    [symbol "SP", store .D (.read .m), number (arguments + frameSize), store .D (.dMinus .a),
     symbol "ARG", store .M .d, symbol "SP", store .D (.read .m), symbol "LCL", store .M .d] ++
    goto name ++ [label returnPoint]

/-- Take a pointer back from the next lower cell of the frame that R13 walks down. -/
def restore (pointer : Pointer) : List Line :=
  [symbol "R13", store .AM (.dec .m), store .D (.read .m), symbol pointer.symbol, store .M .d]

/-- Put the result where the caller expects it, take the caller's pointers back and continue at the
return address, which is read before the result can overwrite it. -/
def ret : List Line :=
  [symbol "LCL", store .D (.read .m), symbol "R13", store .M .d, number frameSize,
   store .A (.dMinus .a), store .D (.read .m), symbol "R14", store .M .d] ++ popD ++
    [symbol "ARG", store .A (.read .m), store .M .d, symbol "ARG", store .D (.inc .m), symbol "SP",
     store .M .d] ++
    [Pointer.that, .this, .argument, .locals].flatMap restore ++
    [symbol "R14", store .A (.read .m), jump .zero .always]

/-- Aim SP at the first cell of the stack. -/
def initStack : List Line :=
  [number stackBase, store .D (.read .a), symbol "SP", store .M .d]

end HackVM.Template
