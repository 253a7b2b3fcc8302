import HackVM.Machine.Cpu

/-! # Running images

Runs are bounded by a number of steps. A run ends at the end of the program, or at a label; that it has
ended is noticed only by a further step, so the bound must exceed the number of instructions executed.
-/

namespace HackVM.Image

/-- The address of a symbol. -/
def addressOf (image : Image) (name : String) : Except Fault Word :=
  match image.symbols[name]? with
  | some address => .ok address
  | none => .error (.unknownSymbol name)

/-- Run to the end of the program in a number of steps, of a limit to be told. -/
def runSteps (image : Image) (limit : Nat) : Nat → Cpu → Outcome
  | 0, cpu => .error (.stillRunning limit) cpu
  | steps + 1, cpu =>
    match image.instructions[cpu.pc]? with
    | none => .ok () cpu
    | some instruction =>
      match cpu.execute instruction with
      | .ok _ next => image.runSteps limit steps next
      | .error fault stopped => .error fault stopped

/-- Run to the end of the program. -/
def run (image : Image) (limit : Nat) (cpu : Cpu) : Outcome := image.runSteps limit limit cpu

/-- Run up to an address in a number of steps, of a limit to be told. -/
def runStepsUntil (image : Image) (label : String) (stop limit : Nat) : Nat → Cpu → Outcome
  | 0, cpu => .error (.notReached label limit) cpu
  | steps + 1, cpu =>
    if cpu.pc = stop then .ok () cpu
    else
      match image.instructions[cpu.pc]? with
      | none => .error (.ranPast label) cpu
      | some instruction =>
        match cpu.execute instruction with
        | .ok _ next => image.runStepsUntil label stop limit steps next
        | .error fault stopped => .error fault stopped

/-- Run up to a label. -/
def runUntil (image : Image) (label : String) (limit : Nat) (cpu : Cpu) : Outcome :=
  match image.addressOf label with
  | .error fault => .error fault cpu
  | .ok stop => image.runStepsUntil label stop.toNat limit limit cpu

end HackVM.Image
