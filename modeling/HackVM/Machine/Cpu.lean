import HackVM.Machine.Image

/-! # The machine

A machine has 32768 cells of memory, the registers A and D, and a program counter. An instruction works on
the machine in place: it computes a word, stores it in the memory, in A and in D, and moves the counter, in
this order. Where it meets an address beyond the memory it stops, with what it has done so far left as it is.
-/

namespace HackVM

/-- The number of memory cells. -/
def memorySize : Nat := 32768

/-- The cells of the memory. -/
abbrev Memory := Vector Word memorySize

/-- A machine. -/
structure Cpu where
  memory : Memory := Vector.replicate memorySize 0
  a : Word := 0
  d : Word := 0
  pc : Nat := 0

/-- Why a machine, or the reader of a machine, cannot go on. -/
inductive Fault where
  | outOfBounds
  | emptyStack
  | unknownSymbol (name : String)
  | stillRunning (limit : Nat)
  | notReached (label : String) (limit : Nat)
  | ranPast (label : String)
deriving DecidableEq, Repr

/-- The fault in words. -/
def Fault.message : Fault → String
  | outOfBounds => "no such memory cell"
  | emptyStack => "nothing lies below the stack pointer"
  | unknownSymbol name => "no symbol " ++ name
  | stillRunning limit => "still running after " ++ limit.repr ++ " steps"
  | notReached label limit => label ++ " not reached after " ++ limit.repr ++ " steps"
  | ranPast label => "fell off the end before " ++ label

/-- The outcome of machine work, with the machine as it is left also after a fault. -/
abbrev Outcome := EStateM.Result Fault Cpu Unit

namespace Cpu

/-- The word in a cell. -/
def peek (cpu : Cpu) (address : Nat) : Except Fault Word :=
  match cpu.memory[address]? with
  | some word => .ok word
  | none => .error .outOfBounds

/-- Replace the word in a cell. -/
def poke (cpu : Cpu) (address : Nat) (value : Word) : Outcome :=
  if address < memorySize then
    .ok () { cpu with memory := cpu.memory.setIfInBounds address value }
  else .error .outOfBounds cpu

/-- The word that a function computes. Only a function of the memory cell looks at the memory. -/
def evaluate (comp : Comp) : EStateM Fault Cpu Word := do
  let cpu ← get
  let inM ← if comp.readsMemory then MonadExcept.ofExcept (cpu.peek cpu.a.toNat) else pure 0
  return comp.eval cpu.d cpu.a inM

/-- Execute one instruction in place. -/
def perform : Instruction → EStateM Fault Cpu Unit
  | .load value => modify fun cpu => { cpu with a := value, pc := cpu.pc + 1 }
  | .compute dest comp jump => do
    let address := (← get).a.toNat
    let value ← evaluate comp
    if dest.m then fun cpu => cpu.poke address value
    if dest.a then modify fun cpu => { cpu with a := value }
    if dest.d then modify fun cpu => { cpu with d := value }
    modify fun cpu => { cpu with pc := if jump.any (·.holds value) then address else cpu.pc + 1 }

/-- Execute one instruction. -/
def execute (cpu : Cpu) (instruction : Instruction) : Outcome := perform instruction cpu

/-- The stack pointer, which is the word in the first cell. -/
def sp (cpu : Cpu) : Nat := (cpu.memory[0]?.getD 0).toNat

/-- The word right below the stack pointer. -/
def top (cpu : Cpu) : Except Fault Word :=
  if cpu.sp = 0 then .error .emptyStack else cpu.peek (cpu.sp - 1)

/-- The words from the first cell of the stack up to the stack pointer, bottom first. -/
def stack (cpu : Cpu) : Except Fault (List Word) :=
  if 256 ≤ cpu.sp && cpu.sp ≤ memorySize then .ok (cpu.memory.toArray.extract 256 cpu.sp).toList
  else .error .outOfBounds

/-- The cells that do not hold zero, in order, with their addresses. -/
def nonzeroCells (cpu : Cpu) : List (Nat × Word) :=
  cpu.memory.toList.zipIdx.filterMap fun (word, address) =>
    if word = 0 then none else some (address, word)

end Cpu

end HackVM
